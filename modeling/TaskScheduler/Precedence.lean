import Mathlib

/-!
# Cycles and the elements behind them

A relation whose elements have finitely many ancestors: which elements an
inductively closed set must contain, and which it cannot contain when the relation
raises a rank on it.
-/
namespace Precedence
open Relation

variable {ν : Type*} {E : ν → ν → Prop}

/-- `v` lies on a cycle or is reachable from one. -/
def Tainted (E : ν → ν → Prop) (v : ν) : Prop := ∃ c, TransGen E c c ∧ ReflTransGen E c v

def ancestors (E : ν → ν → Prop) (v : ν) : Set ν := {u | TransGen E u v}

theorem Tainted.of_edge {u v : ν} (hu : Tainted E u) (h : E u v) : Tainted E v := by
  obtain ⟨c, hc, hcu⟩ := hu
  exact ⟨c, hc, hcu.tail h⟩

theorem ancestors_ssubset {u v : ν} (h : E u v) (hu : ¬ TransGen E u u) :
    ancestors E u ⊂ ancestors E v := by
  refine Set.ssubset_iff_subset_ne.mpr ⟨fun w hw => TransGen.tail hw h, fun he => hu ?_⟩
  have hmem : u ∈ ancestors E v := TransGen.single h
  rwa [← he] at hmem

/-- A set that contains every element whose predecessors it contains, contains every
element that is not tainted. -/
theorem mem_of_not_tainted {R : Set ν} (hfin : ∀ v, (ancestors E v).Finite)
    (hR : ∀ v, (∀ u, E u v → u ∈ R) → v ∈ R) {v : ν} (hv : ¬ Tainted E v) : v ∈ R := by
  induction hn : (ancestors E v).ncard using Nat.strong_induction_on generalizing v with
  | _ n ih =>
    refine hR v fun u hu => ?_
    have hclean : ¬ Tainted E u := fun ht => hv (ht.of_edge hu)
    have hacyclic : ¬ TransGen E u u := fun hc => hclean ⟨u, hc, .refl⟩
    exact ih _ (hn ▸ Set.ncard_lt_ncard (ancestors_ssubset hu hacyclic) (hfin v)) hclean rfl

theorem rank_lt_of_transGen {R : Set ν} {rank : ν → ℕ}
    (hR : ∀ u v, v ∈ R → E u v → u ∈ R ∧ rank u < rank v) {u v : ν} (h : TransGen E u v)
    (hv : v ∈ R) : u ∈ R ∧ rank u < rank v := by
  induction h with
  | single hu => exact hR _ _ hv hu
  | tail _ hlast ih =>
    obtain ⟨hmem, hlt⟩ := hR _ _ hv hlast
    exact ⟨(ih hmem).1, (ih hmem).2.trans hlt⟩

/-- A set that contains the predecessors of its elements, with smaller ranks, has no tainted
element. -/
theorem not_tainted_of_mem {R : Set ν} {rank : ν → ℕ}
    (hR : ∀ u v, v ∈ R → E u v → u ∈ R ∧ rank u < rank v) {v : ν} (hv : v ∈ R) :
    ¬ Tainted E v := by
  rintro ⟨c, hc, hcv⟩
  have hcR : c ∈ R := by
    rcases reflTransGen_iff_eq_or_transGen.mp hcv with rfl | hlt
    · exact hv
    · exact (rank_lt_of_transGen hR hlt hv).1
  exact (rank_lt_of_transGen hR hc hcR).2.false

end Precedence
