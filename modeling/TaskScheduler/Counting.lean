import Mathlib

/-!
# Sums over a family of parties

How a sum of weights over the parties of a system changes when one party changes
its local state.
-/
namespace Counting

variable {ι β M : Type*} [DecidableEq ι]

theorem sum_update [AddCommMonoid M] {s : Finset ι} {i : ι} (hi : i ∈ s) (f : ι → β) (b : β)
    (w : β → M) :
    ∑ j ∈ s, w (Function.update f i b j) + w (f i) = ∑ j ∈ s, w (f j) + w b := by
  rw [← Finset.add_sum_erase s _ hi, ← Finset.add_sum_erase s (fun j => w (f j)) hi]
  have hrest : ∑ j ∈ s.erase i, w (Function.update f i b j) = ∑ j ∈ s.erase i, w (f j) := by
    apply Finset.sum_congr rfl
    intro j hj
    rw [Function.update_of_ne (Finset.ne_of_mem_erase hj)]
  rw [hrest, Function.update_self]
  abel

theorem sum_update_of_notMem [AddCommMonoid M] {s : Finset ι} {i : ι} (hi : i ∉ s) (f : ι → β)
    (b : β) (w : β → M) : ∑ j ∈ s, w (Function.update f i b j) = ∑ j ∈ s, w (f j) := by
  apply Finset.sum_congr rfl
  intro j hj
  have hne : j ≠ i := fun he => hi (he.symm ▸ hj)
  rw [Function.update_of_ne hne]

/-- A step that leaves the party's weight alone leaves the sum alone. -/
theorem sum_update_same [AddCommMonoid M] (s : Finset ι) {i : ι} {f : ι → β} {b : β}
    {w : β → M} (hw : w b = w (f i)) :
    ∑ j ∈ s, w (Function.update f i b j) = ∑ j ∈ s, w (f j) := by
  apply Finset.sum_congr rfl
  intro j _
  by_cases he : j = i
  · subst he
    rw [Function.update_self, hw]
  · rw [Function.update_of_ne he]

/-- What the moving party takes in and gives out is what all parties take in and give out. -/
theorem sum_move [AddCancelCommMonoid M] {s : Finset ι} {i : ι} (hi : i ∈ s) {f : ι → β} {b : β}
    {w : β → M} {out inn : M} (h : w b + out = w (f i) + inn) :
    ∑ j ∈ s, w (Function.update f i b j) + out = ∑ j ∈ s, w (f j) + inn := by
  have hsum := sum_update hi f b w
  apply add_right_cancel (b := w (f i))
  calc ∑ j ∈ s, w (Function.update f i b j) + out + w (f i)
      = ∑ j ∈ s, w (f j) + (w b + out) := by rw [add_right_comm, hsum, add_assoc]
    _ = ∑ j ∈ s, w (f j) + inn + w (f i) := by
        rw [h]
        abel

/-- Two parties that hand `r` over for `t`, while `c` comes in from outside. -/
theorem exchange [AddCancelCommMonoid M] {a a' b b' r t c : M} (ha : a' + r = a + t + c)
    (hb : b' + t = b + r) : a' + b' = a + b + c := by
  apply add_right_cancel (b := r + t)
  calc a' + b' + (r + t) = a' + r + (b' + t) := by abel
    _ = a + t + c + (b + r) := by rw [ha, hb]
    _ = a + b + c + (r + t) := by abel

section Lists
variable {τ : Type*} [AddCommMonoid M] (w : τ → M)

/-- A sum of weights along a list of parties, when the one at position `j` changes. -/
theorem sum_map_set {l : List τ} {j : ℕ} {t : τ} (h : l[j]? = some t) (x : τ) :
    ((l.set j x).map w).sum + w t = (l.map w).sum + w x := by
  induction l generalizing j with
  | nil => simp at h
  | cons a l ih =>
    cases j with
    | zero =>
      obtain rfl : a = t := by simpa using h
      simp only [List.set_cons_zero, List.map_cons, List.sum_cons]
      abel
    | succ j =>
      have hl := ih (by simpa using h)
      simp only [List.set_cons_succ, List.map_cons, List.sum_cons]
      rw [add_assoc, hl, add_assoc]

theorem sum_map_append (l : List τ) (x : τ) :
    ((l ++ [x]).map w).sum = (l.map w).sum + w x := by
  simp

end Lists

end Counting
