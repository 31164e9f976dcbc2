import Mathlib

/-!
# Mutual exclusion

A lock that names its holder, and the threads inside the regions it guards.
-/
namespace Exclusion

variable {θ : Type*} {mu : Option θ} {inside inside' : θ → Bool} {t t' : θ}

/-- Exactly the holder of the lock is inside. -/
def Guards (mu : Option θ) (inside : θ → Bool) : Prop := ∀ t, inside t = true ↔ mu = some t

theorem Guards.holder (h : Guards mu inside) (ht : inside t = true) : mu = some t := (h t).mp ht

theorem Guards.unique (h : Guards mu inside) (ht : inside t = true) (ht' : inside t' = true) :
    t = t' :=
  Option.some.inj ((h.holder ht).symm.trans (h.holder ht'))

theorem Guards.outside (h : Guards mu inside) (ht : inside t = true) (hne : t' ≠ t) :
    inside t' = false :=
  Bool.eq_false_iff.mpr fun ht' => hne (h.unique ht' ht)

theorem Guards.free (h : Guards none inside) (t : θ) : inside t = false :=
  Bool.eq_false_iff.mpr fun ht => by cases h.holder ht

theorem Guards.keep (h : Guards mu inside) (hin : ∀ t, inside' t = inside t) :
    Guards mu inside' := by
  intro t
  rw [hin t]
  exact h t

theorem Guards.acquire (h : Guards none inside) (ht : inside' t = true)
    (hin : ∀ u ≠ t, inside' u = inside u) : Guards (some t) inside' := by
  intro u
  rcases eq_or_ne u t with rfl | hne
  · simp [ht]
  · rw [hin u hne, h.free u]
    simp [hne.symm]

theorem Guards.release (h : Guards mu inside) (ht : inside t = true) (ht' : inside' t = false)
    (hin : ∀ u ≠ t, inside' u = inside u) : Guards none inside' := by
  intro u
  rcases eq_or_ne u t with rfl | hne
  · simp [ht']
  · rw [hin u hne, h.outside ht hne]
    simp

end Exclusion
