import Mathlib

/-!
# CircularArray

The backing store of the Chase-Lev deque: a power-of-two ring of task pointers,
indexed by the unbounded deque indices through a mask. A null pointer is `none`.
-/
namespace TaskScheduler

structure CircularArray (α : Type*) where
  log2Cap : ℕ
  buf : Fin (2 ^ log2Cap) → Option α

namespace CircularArray
variable {α : Type*}

def new (log2Cap : ℕ) : CircularArray α := ⟨log2Cap, fun _ => none⟩

def capacity (a : CircularArray α) : ℤ := 2 ^ a.log2Cap

/-- `idx & mask_`: the mask of a power of two takes the non-negative remainder. -/
def slot (a : CircularArray α) (idx : ℤ) : Fin (2 ^ a.log2Cap) :=
  ⟨(idx % 2 ^ a.log2Cap).toNat, by
    have hpos : (0 : ℤ) < 2 ^ a.log2Cap := by positivity
    have := Int.emod_lt_of_pos idx hpos
    have := Int.emod_nonneg idx hpos.ne'
    zify
    rw [Int.toNat_of_nonneg] <;> assumption⟩

def put (a : CircularArray α) (idx : ℤ) (p : Option α) : CircularArray α :=
  { a with buf := Function.update a.buf (a.slot idx) p }

def get (a : CircularArray α) (idx : ℤ) : Option α := a.buf (a.slot idx)

@[simp] theorem put_log2Cap (a : CircularArray α) (idx : ℤ) (p : Option α) :
    (a.put idx p).log2Cap = a.log2Cap := rfl

@[simp] theorem put_capacity (a : CircularArray α) (idx : ℤ) (p : Option α) :
    (a.put idx p).capacity = a.capacity := rfl

theorem capacity_pos (a : CircularArray α) : 0 < a.capacity := by
  unfold capacity
  positivity

/-- The array that `grow` allocates is twice as large. -/
theorem capacity_succ {a b : CircularArray α} (h : b.log2Cap = a.log2Cap + 1) :
    b.capacity = 2 * a.capacity := by
  simp only [capacity, h, pow_succ]
  ring

@[simp] theorem get_put_self (a : CircularArray α) (idx : ℤ) (p : Option α) :
    (a.put idx p).get idx = p := by
  change Function.update a.buf (a.slot idx) p (a.slot idx) = p
  exact Function.update_self _ _ _

/-- Two indices closer than the capacity never share a slot. -/
theorem slot_ne {a : CircularArray α} {i j : ℤ} (hij : i < j) (hcap : j - i < a.capacity) :
    a.slot i ≠ a.slot j := by
  have hpos : (0 : ℤ) < 2 ^ a.log2Cap := by positivity
  intro he
  have hv : (i % 2 ^ a.log2Cap).toNat = (j % 2 ^ a.log2Cap).toNat := congrArg Fin.val he
  have hi := Int.emod_nonneg i hpos.ne'
  have hj := Int.emod_nonneg j hpos.ne'
  have hmod : j % 2 ^ a.log2Cap = i % 2 ^ a.log2Cap := by omega
  have hdvd : (2 : ℤ) ^ a.log2Cap ∣ j - i := by
    apply Int.dvd_of_emod_eq_zero
    rw [Int.sub_emod, hmod, sub_self, Int.zero_emod]
  have hle := Int.le_of_dvd (by omega) hdvd
  unfold capacity at hcap
  omega

theorem get_put_of_lt {a : CircularArray α} {i j : ℤ} {p : Option α} (hij : i < j)
    (hcap : j - i < a.capacity) : (a.put j p).get i = a.get i := by
  change Function.update a.buf (a.slot j) p (a.slot i) = a.buf (a.slot i)
  exact Function.update_of_ne (slot_ne hij hcap) _ _

end CircularArray

end TaskScheduler
