import TaskScheduler.DequeModel
import TaskScheduler.Segment

/-!
# The invariant of the Chase-Lev deque

While `pop_bottom` is undecided its lowered `bot_` is one below the end of the
deque. `bottom` is the end as the abstract deque has it; every slot of the live
array in `[top_, bottom)` holds a task, and a thief whose index is still `top_`
has read, or will read, the task of that slot in whichever array it holds.
-/
namespace TaskScheduler.Deque
open Transition Segment

variable {α Thief : Type*}

/-- The end of the deque: `bot_`, or one more while a pop has not decided yet. -/
def bottom (m : Shared α) : OwnerPc α → ℤ
  | .popLoadTop _ _ => m.bot + 1
  | .popRestoreBot _ => m.bot + 1
  | .popGet b _ t => if t < b then m.bot else m.bot + 1
  | .popCas _ _ _ => m.bot + 1
  | .popRaiseBot _ _ _ => m.bot + 1
  | _ => m.bot

/-- An array a thief may hold: the live one, or one kept alive in `old_arrays_`. -/
def Published (m : Shared α) (a : ℕ) : Prop := a = m.array ∨ a ∈ m.oldArrays

/-- `next` has been allocated with twice the size and no thief can have seen it. -/
structure Growing (m : Shared α) (next : ℕ) : Prop where
  lt : next < m.allocated
  unpublished : ¬ Published m next
  log2Cap : (m.heap next).log2Cap = m.live.log2Cap + 1

/-- The entries `[top_, hi)` have been copied into `next`. -/
def Copied (m : Shared α) (next : ℕ) (hi : ℤ) : Prop :=
  ∀ j, m.top ≤ j → j < hi → (m.heap next).get j = m.live.get j

structure MemOk (m : Shared α) (hi : ℤ) : Prop where
  top_nonneg : 0 ≤ m.top
  top_le : m.top ≤ hi
  room : hi - m.top ≤ m.live.capacity - 1
  filled : Filled m.live.get m.top hi
  array_lt : m.array < m.allocated
  old_lt : ∀ a ∈ m.oldArrays, a < m.allocated

/-- What the owner's locals say about the shared words at each of its accesses. -/
def OwnerOk (m : Shared α) : OwnerPc α → Prop
  | .idle => True
  | .pushLoadBot _ => True
  | .pushLoadTop _ b => b = m.bot
  | .pushLoadArray _ b t => b = m.bot ∧ t ≤ m.top ∧ b - t ≤ m.live.capacity - 1
  | .growCopy _ b a next i => b = m.bot ∧ a = m.array ∧ Growing m next ∧
      b - i ≤ m.live.capacity - 1 ∧ Copied m next i
  | .growKeep _ b a next => b = m.bot ∧ a = m.array ∧ Growing m next ∧ Copied m next b
  | .growStore _ b next => b = m.bot ∧ m.array ∈ m.oldArrays ∧ Growing m next ∧ Copied m next b
  | .pushPut _ b a => b = m.bot ∧ a = m.array ∧ b + 1 - m.top ≤ m.live.capacity - 1
  | .pushStoreBot task b => b = m.bot ∧ b + 1 - m.top ≤ m.live.capacity - 1 ∧
      m.live.get b = some task
  | .popLoadBot => True
  | .popLoadArray b => m.bot = b + 1
  | .popStoreBot b a => m.bot = b + 1 ∧ a = m.array
  | .popLoadTop b a => m.bot = b ∧ a = m.array
  | .popRestoreBot b => m.bot = b ∧ m.top = b + 1
  | .popGet b a t => m.bot = b ∧ a = m.array ∧ t ≤ b ∧ t ≤ m.top ∧
      (t < b → ∃ x, m.live.get b = some x)
  | .popCas b t raw => m.bot = b ∧ t = b ∧ t ≤ m.top ∧ (m.top = b → raw = m.live.get b)
  | .popRaiseBot b won raw => m.bot = b ∧ m.top = b + 1 ∧ (won = true → ∃ x, raw = some x)

/-- What a thief's locals say about the shared words. Its compare-and-swap can only
succeed while `top_` is still the index it read. -/
def ThiefOk (m : Shared α) (hi : ℤ) : ThiefPc α → Prop
  | .idle => True
  | .loadTop => True
  | .loadBot t => t ≤ m.top
  | .loadArray t => t ≤ m.top ∧ (m.top = t → t < hi)
  | .get t a => t ≤ m.top ∧ Published m a ∧
      (m.top = t → t < hi ∧ (m.heap a).get t = m.live.get t)
  | .cas t raw => t ≤ m.top ∧ (m.top = t → t < hi ∧ raw = m.live.get t)

structure Inv (s : State Thief α) : Prop where
  mem : MemOk s.mem (bottom s.mem s.owner)
  owner : OwnerOk s.mem s.owner
  thief : ∀ i, ThiefOk s.mem (bottom s.mem s.owner) (s.thief i)

/-- What the thieves rely on from the owner: `top_` never falls, the tasks of the deque keep
their slots, published arrays stay published, and a slot at an unchanged `top_` keeps its
contents in each of them. -/
structure Rely (m m' : Shared α) (hi hi' : ℤ) : Prop where
  top_le : m.top ≤ m'.top
  published : ∀ a, Published m a → Published m' a
  live : ∀ j, m.top ≤ j → j < hi → m'.live.get j = m.live.get j
  keep : m'.top = m.top → m.top < hi → m.top < hi' ∧
    ∀ a, Published m a → (m'.heap a).get m.top = (m.heap a).get m.top

theorem Rely.refl (m : Shared α) {hi hi' : ℤ} (h : m.top < hi → m.top < hi') :
    Rely m m hi hi' :=
  ⟨le_rfl, fun _ ha => ha, fun _ _ _ => rfl, fun _ hlt => ⟨h hlt, fun _ _ => rfl⟩⟩

theorem ThiefOk.mono {m m' : Shared α} {hi hi' : ℤ} (hr : Rely m m' hi hi') {pc : ThiefPc α}
    (h : ThiefOk m hi pc) : ThiefOk m' hi' pc := by
  have hle := hr.top_le
  -- an unchanged `top_` equal to the thief's index was so before as well
  have hback : ∀ t, t ≤ m.top → m'.top = t → m.top = t := fun t h1 h2 => by omega
  cases pc with
  | idle => trivial
  | loadTop => trivial
  | loadBot t => exact le_trans h hle
  | loadArray t =>
    refine ⟨h.1.trans hle, fun ht => ?_⟩
    have h0 := hback t h.1 ht
    have := h.2 h0
    exact h0 ▸ (hr.keep (by omega) (by omega)).1
  | get t a =>
    obtain ⟨hle', hp, hk⟩ := h
    refine ⟨hle'.trans hle, hr.published a hp, fun ht => ?_⟩
    obtain rfl := hback t hle' ht
    obtain ⟨hlt, he⟩ := hk rfl
    obtain ⟨h1, h2⟩ := hr.keep ht hlt
    exact ⟨h1, by rw [h2 a hp, he, hr.live _ le_rfl hlt]⟩
  | cas t raw =>
    obtain ⟨hle', hk⟩ := h
    refine ⟨hle'.trans hle, fun ht => ?_⟩
    obtain rfl := hback t hle' ht
    obtain ⟨hlt, he⟩ := hk rfl
    exact ⟨(hr.keep ht hlt).1, he.trans (hr.live _ le_rfl hlt).symm⟩

/-- One access of the owner keeps its part of the invariant and what thieves rely on. -/
structure Keeps (m : Shared α) (hi : ℤ) (m' : Shared α) (pc' : OwnerPc α) : Prop where
  mem : MemOk m' (bottom m' pc')
  owner : OwnerOk m' pc'
  rely : Rely m m' hi (bottom m' pc')

/-- An access that only loads, and leaves the end of the deque where it is. -/
theorem Keeps.of_load {m : Shared α} {hi : ℤ} {pc' : OwnerPc α} (hm : MemOk m hi)
    (hhi : bottom m pc' = hi) (ho : OwnerOk m pc') : Keeps m hi m pc' := by
  subst hhi
  exact ⟨hm, ho, Rely.refl m fun h => h⟩

/-- Rewriting an array that no thief can hold. -/
theorem MemOk.write {m : Shared α} {hi : ℤ} (h : MemOk m hi) {a : ℕ} (c : CircularArray α)
    (ha : m.array ≠ a) : MemOk (m.write a c) hi := by
  have hl := write_live_of_ne m c ha
  exact ⟨h.top_nonneg, h.top_le, hl ▸ h.room, by rw [hl]; exact h.filled, h.array_lt, h.old_lt⟩

theorem Rely.write {m : Shared α} {hi : ℤ} {a : ℕ} (c : CircularArray α)
    (ha : ¬ Published m a) : Rely m (m.write a c) hi hi where
  top_le := le_rfl
  published _ hp := hp
  live j _ _ := by rw [write_live_of_ne m c fun he => ha (.inl he.symm)]
  keep _ hlt := by
    refine ⟨hlt, fun a' hp => ?_⟩
    have hne : a' ≠ a := fun he => ha (he ▸ hp)
    rw [write_heap_of_ne m c hne]

section Push
variable {m : Shared α}

theorem pushLoadArray_keeps {task : α} {b t : ℤ} (hm : MemOk m m.bot)
    (ho : OwnerOk m (.pushLoadArray task b t)) :
    Keeps m m.bot (ownerStep m (.pushLoadArray task b t)).1
      (ownerStep m (.pushLoadArray task b t)).2.1 := by
  obtain ⟨hb, ht, hcap⟩ := ho
  have hfresh : ¬ Published m m.allocated := by
    rintro (he | ha)
    · exact hm.array_lt.ne he.symm
    · exact (hm.old_lt _ ha).false
  have hlive : m.array ≠ m.allocated := hm.array_lt.ne
  simp only [ownerStep]
  split_ifs with hfull
  · have hm' := hm.write (CircularArray.new ((m.heap m.array).log2Cap + 1)) hlive
    have hr : Rely m _ m.bot m.bot :=
      Rely.write (CircularArray.new ((m.heap m.array).log2Cap + 1)) hfresh
    have hl := write_live_of_ne m (CircularArray.new ((m.heap m.array).log2Cap + 1)) hlive
    refine ⟨⟨hm'.top_nonneg, hm'.top_le, hm'.room, hm'.filled, ?_, ?_⟩, ⟨hb, rfl, ⟨?_, hfresh, ?_⟩,
      ?_, ?_⟩, ⟨hr.top_le, hr.published, hr.live, hr.keep⟩⟩
    · exact hm'.array_lt.trans (Nat.lt_succ_self _)
    · exact fun a ha => (hm'.old_lt a ha).trans (Nat.lt_succ_self _)
    · exact Nat.lt_succ_self _
    · change ((m.write m.allocated _).heap m.allocated).log2Cap = (m.write m.allocated _).live.log2Cap + 1
      rw [write_heap_self, hl]
      rfl
    · change b - t ≤ (m.write m.allocated _).live.capacity - 1
      rw [hl]
      exact hcap
    · intro j h1 h2
      have : m.top ≤ j := h1
      omega
  · refine Keeps.of_load hm rfl ⟨hb, rfl, ?_⟩
    have : ¬ (b - t ≥ m.live.capacity - 1) := hfull
    omega

theorem growCopy_keeps {task : α} {b : ℤ} {a next : ℕ} {i : ℤ} (hm : MemOk m m.bot)
    (ho : OwnerOk m (.growCopy task b a next i)) :
    Keeps m m.bot (ownerStep m (.growCopy task b a next i)).1
      (ownerStep m (.growCopy task b a next i)).2.1 := by
  obtain ⟨hb, rfl, hg, hcap, hcopy⟩ := ho
  have hlive : m.array ≠ next := fun he => hg.unpublished (.inl he.symm)
  simp only [ownerStep]
  split_ifs with hi
  · have hl := write_live_of_ne m ((m.heap next).put i ((m.heap m.array).get i)) hlive
    refine ⟨hm.write _ hlive, ⟨hb, rfl, ⟨hg.lt, hg.unpublished, ?_⟩, ?_, ?_⟩, Rely.write _ hg.unpublished⟩
    · rw [hl, write_heap_self]
      exact hg.log2Cap
    · rw [hl]
      omega
    · intro j h1 h2
      rw [hl, write_heap_self]
      have hcap2 := CircularArray.capacity_succ hg.log2Cap
      have hroom := hm.room
      have htop : m.top ≤ j := h1
      have hpos := m.live.capacity_pos
      rcases eq_or_lt_of_le (show j ≤ i by omega) with rfl | hlt
      · exact CircularArray.get_put_self _ _ _
      · rw [CircularArray.get_put_of_lt hlt (by omega)]
        exact hcopy j htop hlt
  · exact Keeps.of_load hm rfl ⟨hb, rfl, hg, fun j h1 h2 => hcopy j h1 (by omega)⟩

theorem growKeep_keeps {task : α} {b : ℤ} {a next : ℕ} (hm : MemOk m m.bot)
    (ho : OwnerOk m (.growKeep task b a next)) :
    Keeps m m.bot (ownerStep m (.growKeep task b a next)).1
      (ownerStep m (.growKeep task b a next)).2.1 := by
  obtain ⟨hb, rfl, hg, hcopy⟩ := ho
  refine ⟨⟨hm.top_nonneg, hm.top_le, hm.room, hm.filled, hm.array_lt, ?_⟩,
    ⟨hb, ?_, ⟨hg.lt, ?_, hg.log2Cap⟩, hcopy⟩,
    ⟨le_rfl, ?_, fun _ _ _ => rfl, fun _ hlt => ⟨hlt, fun _ _ => rfl⟩⟩⟩
  · intro a ha
    rcases List.mem_append.mp ha with ha | ha
    · exact hm.old_lt a ha
    · obtain rfl := List.mem_singleton.mp ha
      exact hm.array_lt
  · exact List.mem_append_right _ (List.mem_singleton_self _)
  · rintro (he | ha)
    · exact hg.unpublished (.inl he)
    · rcases List.mem_append.mp ha with ha | ha
      · exact hg.unpublished (.inr ha)
      · exact hg.unpublished (.inl (List.mem_singleton.mp ha))
  · rintro a (ha | ha)
    · exact .inl ha
    · exact .inr (List.mem_append_left _ ha)

/-- Installing the copy: it agrees with the old live array on `[top_, bot_)`. -/
theorem growStore_keeps {task : α} {b : ℤ} {next : ℕ} (hm : MemOk m m.bot)
    (ho : OwnerOk m (.growStore task b next)) :
    Keeps m m.bot (ownerStep m (.growStore task b next)).1
      (ownerStep m (.growStore task b next)).2.1 := by
  obtain ⟨rfl, hold, hg, hcopy⟩ := ho
  have hpos := m.live.capacity_pos
  have hcap : (m.heap next).capacity = 2 * m.live.capacity := CircularArray.capacity_succ hg.log2Cap
  have hroom := hm.room
  refine ⟨⟨hm.top_nonneg, hm.top_le, ?_, ?_, hg.lt, hm.old_lt⟩, ⟨rfl, rfl, ?_⟩,
    ⟨le_rfl, ?_, hcopy, fun _ hlt => ⟨hlt, fun _ _ => rfl⟩⟩⟩
  · change m.bot - m.top ≤ (m.heap next).capacity - 1
    omega
  · intro j h1 h2
    obtain ⟨x, hx⟩ := hm.filled j h1 h2
    exact ⟨x, (hcopy j h1 h2).trans hx⟩
  · change m.bot + 1 - m.top ≤ (m.heap next).capacity - 1
    omega
  · rintro a (rfl | ha)
    · exact .inr hold
    · exact .inr ha

/-- The slot that `put` overwrites is none of `[top_, bot_)`. -/
theorem pushPut_keeps {task : α} {b : ℤ} {a : ℕ} (hm : MemOk m m.bot)
    (ho : OwnerOk m (.pushPut task b a)) :
    Keeps m m.bot (ownerStep m (.pushPut task b a)).1 (ownerStep m (.pushPut task b a)).2.1 := by
  obtain ⟨rfl, rfl, hroom⟩ := ho
  have hkeep : ∀ j, m.top ≤ j → j < m.bot →
      (m.live.put m.bot (some task)).get j = m.live.get j :=
    fun j h1 h2 => CircularArray.get_put_of_lt h2 (by omega)
  have hl := write_live_self m (m.live.put m.bot (some task))
  refine ⟨⟨hm.top_nonneg, hm.top_le, hl ▸ hm.room, ?_, hm.array_lt, hm.old_lt⟩,
    ⟨rfl, hl ▸ hroom, hl ▸ CircularArray.get_put_self _ _ _⟩, ⟨le_rfl, fun _ ha => ha, ?_, ?_⟩⟩
  · intro j h1 h2
    obtain ⟨x, hx⟩ := hm.filled j h1 h2
    exact ⟨x, hl ▸ (hkeep j h1 h2).trans hx⟩
  · exact fun j h1 h2 => hl ▸ hkeep j h1 h2
  · intro _ hlt
    refine ⟨hlt, fun a _ => ?_⟩
    by_cases he : a = m.array
    · subst he
      exact (congrArg (fun c => CircularArray.get c m.top) (write_heap_self m _)).trans
        (hkeep _ le_rfl hlt)
    · exact congrArg (fun c => CircularArray.get c m.top) (write_heap_of_ne m _ he)

theorem pushStoreBot_keeps {task : α} {b : ℤ} (hm : MemOk m m.bot)
    (ho : OwnerOk m (.pushStoreBot task b)) :
    Keeps m m.bot (ownerStep m (.pushStoreBot task b)).1
      (ownerStep m (.pushStoreBot task b)).2.1 := by
  obtain ⟨rfl, hroom, hx⟩ := ho
  have htop := hm.top_le
  refine ⟨⟨hm.top_nonneg, ?_, hroom, ?_, hm.array_lt, hm.old_lt⟩, trivial,
    ⟨le_rfl, fun _ ha => ha, fun _ _ _ => rfl, fun _ hlt => ⟨?_, fun _ _ => rfl⟩⟩⟩
  · change m.top ≤ m.bot + 1
    omega
  · intro j h1 h2
    rcases eq_or_lt_of_le (show j ≤ m.bot from Int.lt_add_one_iff.mp h2) with rfl | hlt
    · exact ⟨task, hx⟩
    · exact hm.filled j h1 hlt
  · change m.top < m.bot + 1
    omega

end Push

section Pop
variable {m : Shared α}

/-- Moving `bot_` alone, while the end of the deque stays where it is. -/
theorem Keeps.of_bot {hi b : ℤ} {pc' : OwnerPc α} (hm : MemOk m hi)
    (hhi : bottom { m with bot := b } pc' = hi) (ho : OwnerOk { m with bot := b } pc') :
    Keeps m hi { m with bot := b } pc' := by
  subst hhi
  exact ⟨⟨hm.top_nonneg, hm.top_le, hm.room, hm.filled, hm.array_lt, hm.old_lt⟩, ho,
    ⟨le_rfl, fun _ ha => ha, fun _ _ _ => rfl, fun _ hlt => ⟨hlt, fun _ _ => rfl⟩⟩⟩

/-- The load of `top_` decides the pop unless it is the last task that is left. -/
theorem popLoadTop_keeps {b : ℤ} {a : ℕ} (hm : MemOk m (m.bot + 1))
    (ho : OwnerOk m (.popLoadTop b a)) :
    Keeps m (m.bot + 1) (ownerStep m (.popLoadTop b a)).1
      (ownerStep m (.popLoadTop b a)).2.1 := by
  obtain ⟨rfl, rfl⟩ := ho
  have htop := hm.top_le
  simp only [ownerStep]
  split_ifs with hempty
  · exact Keeps.of_load hm rfl ⟨rfl, by omega⟩
  · by_cases hlt : m.top < m.bot
    · have hhi : bottom m (.popGet m.bot m.array m.top) = m.bot := if_pos hlt
      have hlast : m.top < m.bot + 1 → m.top < m.bot := fun _ => hlt
      refine ⟨?_, ⟨rfl, rfl, by omega, le_rfl, fun _ => ?_⟩, ?_⟩
      · rw [hhi]
        have hroom : m.bot - m.top ≤ m.live.capacity - 1 := by
          have := hm.room
          omega
        exact ⟨hm.top_nonneg, hlt.le, hroom, fun i h1 h2 => hm.filled i h1 (by omega),
          hm.array_lt, hm.old_lt⟩
      · exact hm.filled _ hlt.le (by omega)
      · rw [hhi]
        exact Rely.refl m hlast
    · exact Keeps.of_load hm (if_neg hlt) ⟨rfl, rfl, by omega, le_rfl, fun h => absurd h hlt⟩

theorem popGet_keeps {b : ℤ} {a : ℕ} {t : ℤ} (hm : MemOk m (bottom m (.popGet b a t)))
    (ho : OwnerOk m (.popGet b a t)) :
    Keeps m (bottom m (.popGet b a t)) (ownerStep m (.popGet b a t)).1
      (ownerStep m (.popGet b a t)).2.1 := by
  obtain ⟨rfl, rfl, hle, htop, _⟩ := ho
  simp only [ownerStep]
  split_ifs with hlt
  · exact Keeps.of_load hm (if_pos hlt).symm trivial
  · exact Keeps.of_load hm (if_neg hlt).symm ⟨rfl, by omega, htop, fun _ => rfl⟩

/-- Whichever way the race for the last task ends, the deque is empty after it. -/
theorem popCas_keeps {b t : ℤ} {raw : Option α} (hm : MemOk m (m.bot + 1))
    (ho : OwnerOk m (.popCas b t raw)) :
    Keeps m (m.bot + 1) (ownerStep m (.popCas b t raw)).1
      (ownerStep m (.popCas b t raw)).2.1 := by
  obtain ⟨rfl, rfl, htop, hraw⟩ := ho
  have hle := hm.top_le
  simp only [ownerStep]
  split_ifs with hwon
  · have hpos := m.live.capacity_pos
    refine ⟨⟨?_, le_rfl, ?_, fun i h1 h2 => ?_, hm.array_lt, hm.old_lt⟩, ⟨rfl, rfl, fun _ => ?_⟩,
      ⟨hle, fun _ ha => ha, fun _ _ _ => rfl, fun he => ?_⟩⟩
    · have := hm.top_nonneg
      change 0 ≤ m.bot + 1
      omega
    · change m.bot + 1 - (m.bot + 1) ≤ m.live.capacity - 1
      omega
    · exact absurd h2 (not_lt.mpr h1)
    · rw [hraw hwon]
      exact hm.filled _ (by omega) (by omega)
    · have : m.bot + 1 = m.top := he
      omega
  · exact Keeps.of_load hm rfl ⟨rfl, by omega, fun h => absurd h (by simp)⟩

end Pop

/-- Every access of the owner keeps the invariant. -/
theorem ownerStep_keeps {m : Shared α} {pc : OwnerPc α} (hm : MemOk m (bottom m pc))
    (ho : OwnerOk m pc) : Keeps m (bottom m pc) (ownerStep m pc).1 (ownerStep m pc).2.1 := by
  cases pc with
  | idle => exact .of_load hm rfl trivial
  | pushLoadBot task => exact .of_load hm rfl rfl
  | pushLoadTop task b => exact .of_load hm rfl ⟨ho, le_rfl, by rw [ho]; exact hm.room⟩
  | pushLoadArray task b t => exact pushLoadArray_keeps hm ho
  | growCopy task b a next i => exact growCopy_keeps hm ho
  | growKeep task b a next => exact growKeep_keeps hm ho
  | growStore task b next => exact growStore_keeps hm ho
  | pushPut task b a => exact pushPut_keeps hm ho
  | pushStoreBot task b => exact pushStoreBot_keeps hm ho
  | popLoadBot => exact .of_load hm rfl (sub_add_cancel m.bot 1).symm
  | popLoadArray b => exact .of_load hm rfl ⟨ho, rfl⟩
  | popStoreBot b a => exact .of_bot hm ho.1.symm ⟨rfl, ho.2⟩
  | popLoadTop b a => exact popLoadTop_keeps hm ho
  | popRestoreBot b => exact .of_bot hm (congrArg (· + 1) ho.1.symm) trivial
  | popGet b a t => exact popGet_keeps hm ho
  | popCas b t raw => exact popCas_keeps hm ho
  | popRaiseBot b won raw => exact .of_bot hm (congrArg (· + 1) ho.1.symm) trivial

section Steal
variable {m : Shared α}

/-- Taking the front task concerns no local of the owner: it relies on `top_` from below. -/
theorem OwnerOk.steal {pc : OwnerPc α} (ho : OwnerOk m pc) (hlt : m.top < bottom m pc) :
    OwnerOk { m with top := m.top + 1 } pc := by
  have hcopy : ∀ {next hi}, Copied m next hi → Copied { m with top := m.top + 1 } next hi :=
    fun h j h1 h2 => h j (by have : m.top + 1 ≤ j := h1; omega) h2
  cases pc with
  | idle => trivial
  | pushLoadBot task => trivial
  | pushLoadTop task b => exact ho
  | pushLoadArray task b t => exact ⟨ho.1, ho.2.1.trans (Int.le_add_one le_rfl), ho.2.2⟩
  | growCopy task b a next i =>
    obtain ⟨hb, ha, hg, hcap, hc⟩ := ho
    exact ⟨hb, ha, ⟨hg.lt, hg.unpublished, hg.log2Cap⟩, hcap, hcopy hc⟩
  | growKeep task b a next =>
    obtain ⟨hb, ha, hg, hc⟩ := ho
    exact ⟨hb, ha, ⟨hg.lt, hg.unpublished, hg.log2Cap⟩, hcopy hc⟩
  | growStore task b next =>
    obtain ⟨hb, ha, hg, hc⟩ := ho
    exact ⟨hb, ha, ⟨hg.lt, hg.unpublished, hg.log2Cap⟩, hcopy hc⟩
  | pushPut task b a =>
    obtain ⟨hb, ha, hroom⟩ := ho
    refine ⟨hb, ha, ?_⟩
    change b + 1 - (m.top + 1) ≤ m.live.capacity - 1
    omega
  | pushStoreBot task b =>
    obtain ⟨hb, hroom, hx⟩ := ho
    refine ⟨hb, ?_, hx⟩
    change b + 1 - (m.top + 1) ≤ m.live.capacity - 1
    omega
  | popLoadBot => trivial
  | popLoadArray b => exact ho
  | popStoreBot b a => exact ho
  | popLoadTop b a => exact ho
  | popRestoreBot b =>
    have : m.top < m.bot + 1 := hlt
    have := ho.1
    have := ho.2
    omega
  | popGet b a t => exact ⟨ho.1, ho.2.1, ho.2.2.1, ho.2.2.2.1.trans (Int.le_add_one le_rfl), ho.2.2.2.2⟩
  | popCas b t raw =>
    obtain ⟨hb, ht, hle, _⟩ := ho
    refine ⟨hb, ht, hle.trans (Int.le_add_one le_rfl), fun he => ?_⟩
    have : m.top + 1 = b := he
    omega
  | popRaiseBot b won raw =>
    have : m.top < m.bot + 1 := hlt
    have := ho.1
    have := ho.2.1
    omega

theorem bottom_steal (m : Shared α) (pc : OwnerPc α) (t : ℤ) :
    bottom { m with top := t } pc = bottom m pc := by
  cases pc <;> rfl

theorem MemOk.steal {hi : ℤ} (hm : MemOk m hi) (hlt : m.top < hi) :
    MemOk { m with top := m.top + 1 } hi where
  top_nonneg := by
    have := hm.top_nonneg
    change 0 ≤ m.top + 1
    omega
  top_le := hlt
  room := by
    have := hm.room
    change hi - (m.top + 1) ≤ m.live.capacity - 1
    omega
  filled i h1 h2 := hm.filled i (by have : m.top + 1 ≤ i := h1; omega) h2
  array_lt := hm.array_lt
  old_lt := hm.old_lt

theorem Rely.steal (m : Shared α) (hi : ℤ) : Rely m { m with top := m.top + 1 } hi hi where
  top_le := Int.le_add_one le_rfl
  published _ ha := ha
  live _ _ _ := rfl
  keep he := by
    have : m.top + 1 = m.top := he
    omega

/-- The lowered `bot_` is never above the end of the deque. -/
theorem bot_le_bottom (m : Shared α) (pc : OwnerPc α) : m.bot ≤ bottom m pc := by
  cases pc with
  | popGet b a t =>
    simp only [bottom]
    split_ifs <;> omega
  | _ => simp [bottom]

theorem bottom_le_succ (m : Shared α) (pc : OwnerPc α) : bottom m pc ≤ m.bot + 1 := by
  cases pc with
  | popGet b a t =>
    simp only [bottom]
    split_ifs <;> omega
  | _ => simp [bottom]

/-- One access of a thief, which changes shared words only when its compare-and-swap wins. -/
theorem thiefStep_keeps {pc : OwnerPc α} {tpc : ThiefPc α} (hm : MemOk m (bottom m pc))
    (ho : OwnerOk m pc) (ht : ThiefOk m (bottom m pc) tpc) :
    Keeps m (bottom m pc) (thiefStep m tpc).1 pc ∧
      ThiefOk (thiefStep m tpc).1 (bottom (thiefStep m tpc).1 pc) (thiefStep m tpc).2.1 := by
  have hsame : Keeps m (bottom m pc) m pc := .of_load hm rfl ho
  cases tpc with
  | idle => exact ⟨hsame, trivial⟩
  | loadTop => exact ⟨hsame, le_rfl⟩
  | loadBot t =>
    simp only [thiefStep]
    split_ifs with hempty
    · exact ⟨hsame, trivial⟩
    · refine ⟨hsame, ht, fun he => ?_⟩
      have hle := bot_le_bottom m pc
      change t < bottom m pc
      omega
  | loadArray t => exact ⟨hsame, ht.1, .inl rfl, fun he => ⟨ht.2 he, rfl⟩⟩
  | get t a => exact ⟨hsame, ht.1, fun he => ht.2.2 he⟩
  | cas t raw =>
    simp only [thiefStep]
    split_ifs with hwon
    · obtain ⟨hlt, _⟩ := ht.2 hwon
      subst hwon
      refine ⟨⟨?_, ho.steal hlt, ?_⟩, trivial⟩
      · rw [bottom_steal]
        exact hm.steal hlt
      · rw [bottom_steal]
        exact Rely.steal m _
    · exact ⟨hsame, trivial⟩

end Steal

section Steps
variable [DecidableEq Thief]

theorem inv_init : Inv (machine Thief α).init where
  mem := by
    refine ⟨le_rfl, le_rfl, ?_, fun i h1 h2 => absurd h2 (not_lt.mpr h1), Nat.zero_lt_one, ?_⟩
    · have hpos := (initShared : Shared α).live.capacity_pos
      change (0 : ℤ) - 0 ≤ (initShared : Shared α).live.capacity - 1
      omega
    · intro a ha
      cases ha
  owner := trivial
  thief _ := trivial

omit [DecidableEq Thief] in
/-- A step of the owner, seen by the whole system. -/
theorem Inv.of_owner {s : State Thief α} (h : Inv s) {m' : Shared α} {pc' : OwnerPc α}
    (hk : Keeps s.mem (bottom s.mem s.owner) m' pc') :
    Inv { s with mem := m', owner := pc' } :=
  ⟨hk.mem, hk.owner, fun i => (h.thief i).mono hk.rely⟩

theorem Inv.of_thief {s : State Thief α} (h : Inv s) (i : Thief) {m' : Shared α} {tpc : ThiefPc α}
    (hk : Keeps s.mem (bottom s.mem s.owner) m' s.owner)
    (ht : ThiefOk m' (bottom m' s.owner) tpc) :
    Inv { s with mem := m', thief := Function.update s.thief i tpc } := by
  refine ⟨hk.mem, hk.owner, fun j => ?_⟩
  by_cases hj : j = i
  · subst hj
    simpa using ht
  · simpa [Function.update_of_ne hj] using (h.thief j).mono hk.rely

theorem inv_step (s : State Thief α) (a : Action Thief α) (s' : State Thief α) (h : Inv s)
    (hs : step s a = some s') : Inv s' := by
  cases a with
  | push task =>
    cases hpc : s.owner <;> simp only [step, hpc, reduceCtorEq, Option.some.injEq] at hs
    subst hs
    have hm := h.mem
    rw [hpc] at hm
    exact h.of_owner (hpc ▸ .of_load hm rfl trivial)
  | pop =>
    cases hpc : s.owner <;> simp only [step, hpc, reduceCtorEq, Option.some.injEq] at hs
    subst hs
    have hm := h.mem
    rw [hpc] at hm
    exact h.of_owner (hpc ▸ .of_load hm rfl trivial)
  | owner =>
    have hk := ownerStep_keeps h.mem h.owner
    cases hpc : s.owner <;> simp only [step, hpc, reduceCtorEq, Option.some.injEq] at hs <;>
      (subst hs; rw [hpc] at hk; exact h.of_owner (hpc ▸ hk))
  | steal i =>
    cases hpc : s.thief i <;> simp only [step, hpc, reduceCtorEq, Option.some.injEq] at hs
    subst hs
    exact h.of_thief i (.of_load h.mem rfl h.owner) trivial
  | thief i =>
    have hk := thiefStep_keeps h.mem h.owner (h.thief i)
    cases hpc : s.thief i <;> simp only [step, hpc, reduceCtorEq, Option.some.injEq] at hs <;>
      (subst hs; rw [hpc] at hk; exact h.of_thief i hk.1 hk.2)

theorem inv_of_run {tr : List (State Thief α × Action Thief α)} {s : State Thief α}
    (h : Run (machine Thief α) tr s) : Inv s :=
  Run.invariant inv_init inv_step h

end Steps

end TaskScheduler.Deque
