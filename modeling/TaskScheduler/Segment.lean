import Mathlib

/-!
# Segments of an integer-indexed store

The list of the entries a partial store holds between two integer indices, and
what happens to it when either end moves by one.
-/
namespace Segment

variable {α : Type*}

/-- The entries of `f` at `lo`, `lo + 1`, …, `hi - 1`, missing ones left out. -/
def segment (f : ℤ → Option α) (lo hi : ℤ) : List α :=
  (List.range (hi - lo).toNat).filterMap fun i : ℕ => f (lo + i)

/-- Every index of the half-open interval carries an entry. -/
def Filled (f : ℤ → Option α) (lo hi : ℤ) : Prop :=
  ∀ i, lo ≤ i → i < hi → ∃ x, f i = some x

theorem segment_congr {f g : ℤ → Option α} {lo hi : ℤ}
    (h : ∀ i, lo ≤ i → i < hi → f i = g i) : segment f lo hi = segment g lo hi := by
  apply List.filterMap_congr
  intro i hi'
  have := List.mem_range.mp hi'
  exact h _ (by omega) (by omega)

@[simp] theorem segment_self (f : ℤ → Option α) (lo : ℤ) : segment f lo lo = [] := by
  simp [segment]

theorem segment_snoc {f : ℤ → Option α} {lo hi : ℤ} {x : α} (hle : lo ≤ hi)
    (hx : f hi = some x) : segment f lo (hi + 1) = segment f lo hi ++ [x] := by
  have hlen : (hi + 1 - lo).toNat = (hi - lo).toNat + 1 := by omega
  have hlast : lo + ((hi - lo).toNat : ℤ) = hi := by omega
  simp only [segment, hlen, List.range_succ, List.filterMap_append, List.filterMap_cons,
    hlast, hx, List.filterMap_nil]

theorem segment_cons {f : ℤ → Option α} {lo hi : ℤ} {x : α} (hlt : lo < hi)
    (hx : f lo = some x) : segment f lo hi = x :: segment f (lo + 1) hi := by
  have hlen : (hi - lo).toNat = (hi - (lo + 1)).toNat + 1 := by omega
  simp only [segment, hlen, List.range_succ_eq_map, List.filterMap_cons, Nat.cast_zero,
    add_zero, hx, List.filterMap_map]
  congr 2
  funext i
  simp only [Function.comp_apply, Nat.succ_eq_add_one, Nat.cast_add, Nat.cast_one]
  congr 1
  ring

end Segment
