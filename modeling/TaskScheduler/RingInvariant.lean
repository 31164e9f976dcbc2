import TaskScheduler.RingModel

/-!
# The sequence numbers of the ring

The slot of a position is free for that position, filled with its task, or on its way
from one to the other; which of these is decided by its sequence number, for the
operations of all generations that are in the slot at the same time.
-/
namespace TaskScheduler.LockFree.Ring
open Transition

/-- The position that the thread has reserved and not published yet. -/
def Pc.produces {α : Type*} : Pc α → Option ℕ
  | .await pos _ | .store pos _ | .publish pos => some pos
  | _ => none

/-- The position that the thread has claimed and not returned yet. -/
def Pc.consumes {α : Type*} : Pc α → Option ℕ
  | .exchange pos | .release pos _ => some pos
  | _ => none

/-- The position whose slot is the thread's own at this point. -/
def Pc.holds {α : Type*} : Pc α → Option ℕ
  | .store pos _ | .publish pos | .exchange pos | .release pos _ => some pos
  | _ => none

variable {θ α : Type*} {N : ℕ} {L : List α} {s : State θ α}

/-- What a thread relies on at its next access; `L` lists the tasks in the order of their
reservations. -/
def PcOk (N : ℕ) (L : List α) (s : State θ α) : Pc α → Prop
  | .await pos task => L[pos]? = some task ∧ s.sequence (pos % N) ≤ pos
  | .store pos task => L[pos]? = some task ∧ s.sequence (pos % N) = pos
  | .publish pos =>
    pos < L.length ∧ s.sequence (pos % N) = pos ∧ s.payload (pos % N) = L[pos]?
  | .loadSequence pos => pos ≤ s.tail
  | .claim pos => pos ≤ s.tail ∧ pos < s.sequence (pos % N)
  | .exchange pos =>
    pos < s.tail ∧ s.sequence (pos % N) = pos + 1 ∧ s.payload (pos % N) = L[pos]?
  | .release pos raw =>
    pos < s.tail ∧ s.sequence (pos % N) = pos + 1 ∧ s.payload (pos % N) = none ∧ raw = L[pos]?
  | _ => True

structure Inv (N : ℕ) (L : List α) (s : State θ α) : Prop where
  head : s.head = L.length
  tail : s.tail ≤ s.head
  slots : ∀ j < N, ∃ q, q % N = j ∧ q < s.tail + N ∧ s.tail ≤ q + N ∧
    (s.sequence j = q ∧ s.tail ≤ q ∨ s.sequence j = q + 1 ∧ q < s.head)
  produced : ∀ p < s.head, s.sequence (p % N) ≤ p → ∃ t, (s.threads t).produces = some p
  consumed : ∀ p < s.tail, s.sequence (p % N) = p + 1 → ∃ t, (s.threads t).consumes = some p
  empty : ∀ p, s.sequence (p % N) = p → s.payload (p % N) = none ∨ ∃ t, s.threads t = .publish p
  full : ∀ p, s.sequence (p % N) = p + 1 → s.tail ≤ p → s.payload (p % N) = L[p]?
  producer : ∀ t t' p, (s.threads t).produces = some p → (s.threads t').produces = some p → t = t'
  consumer : ∀ t t' p, (s.threads t).consumes = some p → (s.threads t').consumes = some p → t = t'
  pcs : ∀ t, PcOk N L s (s.threads t)

/-- Two positions of one slot are at least a ring apart. -/
theorem mod_cases {p q : ℕ} (h : q % N = p % N) : q = p ∨ q + N ≤ p ∨ p + N ≤ q := by
  have hmod : q ≡ p [MOD N] := h
  rcases Nat.lt_trichotomy q p with hlt | heq | hgt
  · exact .inr (.inl (hmod.add_le_of_lt hlt))
  · exact .inl heq
  · exact .inr (.inr (hmod.symm.add_le_of_lt hgt))

section Numbers
variable {p : ℕ}

theorem Inv.slot_of (h : Inv N L s) (hN : 2 ≤ N) (p : ℕ) :
    ∃ q, (q = p ∨ q + N ≤ p ∨ p + N ≤ q) ∧ q < s.tail + N ∧ s.tail ≤ q + N ∧
      (s.sequence (p % N) = q ∧ s.tail ≤ q ∨ s.sequence (p % N) = q + 1 ∧ q < s.head) := by
  obtain ⟨q, hq, hrest⟩ := h.slots (p % N) (Nat.mod_lt p (by omega))
  exact ⟨q, mod_cases hq, hrest⟩

/-- A slot that awaits the producer of `p`. -/
theorem Inv.free (h : Inv N L s) (hN : 2 ≤ N) (hp : s.sequence (p % N) = p) :
    s.tail ≤ p ∧ p < s.tail + N := by
  obtain ⟨q, hq, hlt, hle, hseq⟩ := h.slot_of hN p
  omega

/-- A slot that has been filled by the producer of `p`. -/
theorem Inv.filled (h : Inv N L s) (hN : 2 ≤ N) (hp : s.sequence (p % N) = p + 1) :
    p < s.head ∧ p < s.tail + N ∧ s.tail ≤ p + N := by
  obtain ⟨q, hq, hlt, hle, hseq⟩ := h.slot_of hN p
  omega

theorem Inv.passed (h : Inv N L s) (hN : 2 ≤ N) (hp : p < s.tail) : p < s.sequence (p % N) := by
  obtain ⟨q, hq, hlt, hle, hseq⟩ := h.slot_of hN p
  omega

theorem Inv.sequence_lt (h : Inv N L s) (hN : 2 ≤ N) (p : ℕ) :
    s.sequence (p % N) < s.head + N := by
  obtain ⟨q, hq, hlt, hle, hseq⟩ := h.slot_of hN p
  have htail := h.tail
  omega

/-- The only position that can be claimed is the one at `tail_`, once it is filled. -/
theorem Inv.claimable (h : Inv N L s) (hN : 2 ≤ N) (hp : s.tail < s.sequence (s.tail % N)) :
    s.sequence (s.tail % N) = s.tail + 1 := by
  obtain ⟨q, hq, hlt, hle, hseq⟩ := h.slot_of hN s.tail
  omega

end Numbers

section Threads
variable [DecidableEq θ] {threads : θ → Pc α} {t : θ} {old pc : Pc α}

theorem exists_update {P : Pc α → Prop} (ht : threads t = old) (h : ∃ t', P (threads t'))
    (hpc : P old → P pc) : ∃ t', P (Function.update threads t pc t') := by
  obtain ⟨t', ht'⟩ := h
  rcases eq_or_ne t' t with rfl | hne
  · exact ⟨t', by rw [Function.update_self]; exact hpc (ht ▸ ht')⟩
  · exact ⟨t', by rw [Function.update_of_ne hne]; exact ht'⟩

theorem unique_update {r : Pc α → Option ℕ}
    (h : ∀ t t' p, r (threads t) = some p → r (threads t') = some p → t = t')
    (hpc : ∀ p, r pc = some p → r (threads t) = some p ∨ ∀ t', r (threads t') ≠ some p)
    (t₁ t₂ : θ) (p : ℕ) (h₁ : r (Function.update threads t pc t₁) = some p)
    (h₂ : r (Function.update threads t pc t₂) = some p) : t₁ = t₂ := by
  rcases eq_or_ne t₁ t with he₁ | hne₁ <;> rcases eq_or_ne t₂ t with he₂ | hne₂
  · rw [he₁, he₂]
  · subst he₁
    rw [Function.update_self] at h₁
    rw [Function.update_of_ne hne₂] at h₂
    rcases hpc p h₁ with hold | hnone
    · exact h _ _ p hold h₂
    · exact absurd h₂ (hnone t₂)
  · subst he₂
    rw [Function.update_self] at h₂
    rw [Function.update_of_ne hne₁] at h₁
    rcases hpc p h₂ with hold | hnone
    · exact h _ _ p h₁ hold
    · exact absurd h₁ (hnone t₁)
  · rw [Function.update_of_ne hne₁] at h₁
    rw [Function.update_of_ne hne₂] at h₂
    exact h _ _ p h₁ h₂

theorem unique_update_of_keep {r : Pc α → Option ℕ} (ht : threads t = old)
    (h : ∀ t t' p, r (threads t) = some p → r (threads t') = some p → t = t')
    (hpc : r pc = none ∨ r pc = r old) (t₁ t₂ : θ) (p : ℕ)
    (h₁ : r (Function.update threads t pc t₁) = some p)
    (h₂ : r (Function.update threads t pc t₂) = some p) : t₁ = t₂ := by
  refine unique_update h (fun q hq => ?_) t₁ t₂ p h₁ h₂
  rcases hpc with hnone | hsame
  · rw [hnone] at hq
    cases hq
  · exact .inl (by rw [ht, ← hsame, hq])

theorem forall_update {P : Pc α → Prop} (hpc : P pc) (h : ∀ t' ≠ t, P (threads t')) (t' : θ) :
    P (Function.update threads t pc t') := by
  rcases eq_or_ne t' t with rfl | hne
  · rw [Function.update_self]
    exact hpc
  · rw [Function.update_of_ne hne]
    exact h t' hne

end Threads

section Steps
variable {s' : State θ α} {L' : List α} {pc : Pc α} {t : θ}

/-- The sequence number of a slot that a thread holds. -/
theorem PcOk.holds (h : PcOk N L s pc) {p : ℕ} (hp : pc.holds = some p) :
    s.sequence (p % N) = p ∧ pc.produces = some p ∨
      s.sequence (p % N) = p + 1 ∧ pc.consumes = some p := by
  cases pc <;> simp only [Pc.holds, Option.some.injEq, reduceCtorEq] at hp <;> subst hp
  · exact .inl ⟨h.2, rfl⟩
  · exact .inl ⟨h.2.1, rfl⟩
  · exact .inr ⟨h.2.1, rfl⟩
  · exact .inr ⟨h.2.1, rfl⟩

/-- A slot is held by one thread at a time. -/
theorem Inv.holder (h : Inv N L s) (hN : 2 ≤ N) {t t' : θ} {p p' : ℕ}
    (ht : (s.threads t).holds = some p) (ht' : (s.threads t').holds = some p')
    (hslot : p % N = p' % N) : t = t' := by
  have hmod := mod_cases hslot
  rcases (h.pcs t).holds ht with ⟨hseq, hrole⟩ | ⟨hseq, hrole⟩ <;>
    rcases (h.pcs t').holds ht' with ⟨hseq', hrole'⟩ | ⟨hseq', hrole'⟩ <;>
    rw [hslot] at hseq
  · exact h.producer t t' p hrole (by rw [hrole']; congr 1; omega)
  · omega
  · omega
  · exact h.consumer t t' p hrole (by rw [hrole']; congr 1; omega)

/-- What another thread relies on survives a step that leaves its slot alone. -/
theorem PcOk.frame (h : PcOk N L s pc) (hlen : s.tail ≤ L.length) (hL : L <+: L')
    (htail : s.tail ≤ s'.tail)
    (hmono : ∀ pos, s.sequence (pos % N) ≤ s'.sequence (pos % N))
    (hawait : ∀ pos, pc.produces = some pos → s.sequence (pos % N) ≤ pos →
      s'.sequence (pos % N) ≤ pos)
    (hslot : ∀ pos, pc.holds = some pos → s'.sequence (pos % N) = s.sequence (pos % N) ∧
      s'.payload (pos % N) = s.payload (pos % N)) : PcOk N L' s' pc := by
  have hget : ∀ pos < L.length, L'[pos]? = L[pos]? := by
    intro pos hpos
    obtain ⟨rest, rfl⟩ := hL
    exact List.getElem?_append_left hpos
  have hsome : ∀ (pos : ℕ) (x : α), L[pos]? = some x → L'[pos]? = some x := by
    intro pos x hx
    rw [hget pos (List.getElem?_eq_some_iff.mp hx).1, hx]
  cases pc with
  | await pos task => exact ⟨hsome pos task h.1, hawait pos rfl h.2⟩
  | store pos task =>
    obtain ⟨hseq, -⟩ := hslot pos rfl
    exact ⟨hsome pos task h.1, hseq.trans h.2⟩
  | publish pos =>
    obtain ⟨hseq, hpay⟩ := hslot pos rfl
    obtain ⟨hlt, hold, hraw⟩ := h
    exact ⟨hlt.trans_le hL.length_le, hseq.trans hold, by rw [hpay, hraw, hget pos hlt]⟩
  | loadSequence pos => exact le_trans h htail
  | claim pos => exact ⟨h.1.trans htail, h.2.trans_le (hmono pos)⟩
  | exchange pos =>
    obtain ⟨hseq, hpay⟩ := hslot pos rfl
    obtain ⟨hlt, hold, hraw⟩ := h
    exact ⟨hlt.trans_le htail, hseq.trans hold, by rw [hpay, hraw, hget pos (by omega)]⟩
  | release pos raw =>
    obtain ⟨hseq, hpay⟩ := hslot pos rfl
    obtain ⟨hlt, hold, hnone, hraw⟩ := h
    exact ⟨hlt.trans_le htail, hseq.trans hold, hpay.trans hnone,
      by rw [hraw, hget pos (by omega)]⟩
  | _ => trivial

/-- A reserved position is published by its own thread only. -/
theorem PcOk.produces (h : PcOk N L s pc) {p : ℕ} (hp : pc.produces = some p) :
    p < L.length ∧ s.sequence (p % N) ≤ p := by
  cases pc <;> simp only [Pc.produces, Option.some.injEq, reduceCtorEq] at hp <;> subst hp
  · exact ⟨(List.getElem?_eq_some_iff.mp h.1).1, h.2⟩
  · exact ⟨(List.getElem?_eq_some_iff.mp h.1).1, h.2.le⟩
  · exact ⟨h.1, h.2.1.le⟩

theorem PcOk.consumes (h : PcOk N L s pc) {p : ℕ} (hp : pc.consumes = some p) :
    p < s.tail ∧ s.sequence (p % N) = p + 1 := by
  cases pc <;> simp only [Pc.consumes, Option.some.injEq, reduceCtorEq] at hp <;> subst hp
  · exact ⟨h.1, h.2.1⟩
  · exact ⟨h.1, h.2.1⟩

/-- Changes to the slot that the moving thread holds do not touch what another thread holds. -/
theorem Inv.other_slot (h : Inv N L s) (hN : 2 ≤ N) {p pos : ℕ} {t' : θ}
    (ht : (s.threads t).holds = some p) (hne : t' ≠ t) (ht' : (s.threads t').holds = some pos) :
    pos % N ≠ p % N := fun he => hne (h.holder hN ht' ht he)

variable [DecidableEq θ] {old : Pc α}

/-- A step that only moves one thread, between points where it has the same role. -/
theorem Inv.goto (h : Inv N L s) (ht : s.threads t = old) (hprod : pc.produces = old.produces)
    (hcons : pc.consumes = old.consumes) (hpub : ∀ p, old = .publish p → pc = .publish p)
    (hpc : PcOk N L s pc) : Inv N L (s.goto t pc) where
  head := h.head
  tail := h.tail
  slots := h.slots
  produced p hp hseq := exists_update (P := fun x => x.produces = some p) ht
    (h.produced p hp hseq) hprod.trans
  consumed p hp hseq := exists_update (P := fun x => x.consumes = some p) ht
    (h.consumed p hp hseq) hcons.trans
  empty p hseq := (h.empty p hseq).imp_right fun hp =>
    exists_update (P := (· = .publish p)) ht hp (hpub p)
  full := h.full
  producer := unique_update_of_keep ht h.producer (.inr hprod)
  consumer := unique_update_of_keep ht h.consumer (.inr hcons)
  pcs := forall_update (P := PcOk N L (s.goto t pc)) hpc fun t' _ => h.pcs t'

/-- `head_.fetch_add`. -/
theorem Inv.reserve (h : Inv N L s) (hN : 2 ≤ N) {task : α} (ht : s.threads t = .reserve task) :
    Inv N (L ++ [task]) ({ s with head := s.head + 1 }.goto t (.await s.head task)) where
  head := by simp [State.goto, h.head]
  tail := h.tail.trans (Nat.le_succ _)
  slots j hj := by
    obtain ⟨q, hq, hlt, hle, hseq⟩ := h.slots j hj
    exact ⟨q, hq, hlt, hle, hseq.imp_right fun hf => ⟨hf.1, hf.2.trans (Nat.lt_succ_self _)⟩⟩
  produced p hp hseq := by
    rcases Nat.lt_succ_iff_lt_or_eq.mp hp with hlt | rfl
    · exact exists_update (P := fun x => x.produces = some p) ht (h.produced p hlt hseq) nofun
    · exact ⟨t, by simp [State.goto, Pc.produces]⟩
  consumed p hp hseq :=
    exists_update (P := fun x => x.consumes = some p) ht (h.consumed p hp hseq) nofun
  empty p hseq := (h.empty p hseq).imp_right fun hpub =>
    exists_update (P := (· = .publish p)) ht hpub nofun
  full p hseq hp := by
    have hlt := (h.filled hN hseq).1
    rw [List.getElem?_append_left (h.head ▸ hlt)]
    exact h.full p hseq hp
  producer := by
    refine unique_update h.producer fun p hp => .inr fun t' ht' => ?_
    have hlt := ((h.pcs t').produces ht').1
    have heq : s.head = p := by simpa [Pc.produces] using hp
    have hhead := h.head
    omega
  consumer := unique_update_of_keep ht h.consumer (.inl rfl)
  pcs := by
    have hlen : s.tail ≤ L.length := h.head ▸ h.tail
    refine forall_update (P := PcOk N (L ++ [task]) _) ⟨?_, ?_⟩ fun t' _ =>
      (h.pcs t').frame hlen (List.prefix_append L _) le_rfl (fun _ => le_rfl) (fun _ _ hle => hle)
        fun _ _ => ⟨rfl, rfl⟩
    · rw [h.head, List.getElem?_concat_length]
    · obtain ⟨q, hq, hlt, hle, hseq⟩ := h.slot_of hN s.head
      have htail := h.tail
      change s.sequence (s.head % N) ≤ s.head
      omega

/-- The store of the payload. -/
theorem Inv.store (h : Inv N L s) (hN : 2 ≤ N) {pos : ℕ} {task : α}
    (ht : s.threads t = .store pos task) :
    Inv N L ((s.setPayload (pos % N) (some task)).goto t (.publish pos)) := by
  obtain ⟨hget, hseq⟩ : PcOk N L s (.store pos task) := ht ▸ h.pcs t
  have hlt := (List.getElem?_eq_some_iff.mp hget).1
  have hholds : (s.threads t).holds = some pos := by rw [ht]; rfl
  refine ⟨h.head, h.tail, h.slots, fun p hp hle => ?_, fun p hp hs => ?_, fun p hs => ?_,
    fun p hs hp => ?_, unique_update_of_keep ht h.producer (.inr rfl),
    unique_update_of_keep ht h.consumer (.inl rfl), ?_⟩
  · exact exists_update (P := fun x => x.produces = some p) ht (h.produced p hp hle) id
  · exact exists_update (P := fun x => x.consumes = some p) ht (h.consumed p hp hs) nofun
  · change s.sequence (p % N) = p at hs
    by_cases hslot : p % N = pos % N
    · rw [hslot, hseq] at hs
      exact .inr ⟨t, by simp [State.goto, hs]⟩
    · refine Or.imp (fun hnone => ?_) (fun hpub => ?_) (h.empty p hs)
      · exact (setPayload_of_ne s hslot _).trans hnone
      · exact exists_update (P := (· = .publish p)) ht hpub nofun
  · change s.sequence (p % N) = p + 1 at hs
    have hslot : p % N ≠ pos % N := by
      intro he
      have hmod := mod_cases he
      rw [he] at hs
      omega
    exact (setPayload_of_ne s hslot _).trans (h.full p hs hp)
  · refine forall_update (P := PcOk N L _) ⟨hlt, hseq, ?_⟩ fun t' hne =>
      (h.pcs t').frame (h.head ▸ h.tail) List.prefix_rfl le_rfl (fun _ => le_rfl)
        (fun _ _ hle => hle) fun p hp => ⟨rfl, ?_⟩
    · rw [hget]
      exact setPayload_self s _ _
    · exact setPayload_of_ne s (h.other_slot hN hholds hne hp) _

/-- The store of `pos + 1`, after which the slot is filled. -/
theorem Inv.publish (h : Inv N L s) (hN : 2 ≤ N) {pos : ℕ} (ht : s.threads t = .publish pos) :
    Inv N L ((s.setSequence (pos % N) (pos + 1)).goto t .idle) := by
  obtain ⟨hlt, hseq, hpay⟩ : PcOk N L s (.publish pos) := ht ▸ h.pcs t
  have hholds : (s.threads t).holds = some pos := by rw [ht]; rfl
  have hfree := h.free hN hseq
  have hhead := h.head
  refine ⟨h.head, h.tail, fun j hj => ?_, fun p hp hle => ?_, fun p hp hs => ?_, fun p hs => ?_,
    fun p hs hp => ?_, unique_update_of_keep ht h.producer (.inl rfl),
    unique_update_of_keep ht h.consumer (.inl rfl), ?_⟩
  · rcases eq_or_ne j (pos % N) with rfl | hne
    · exact ⟨pos, rfl, hfree.2, hfree.1.trans (by omega), .inr ⟨setSequence_self _ _ _, hhead ▸ hlt⟩⟩
    · obtain ⟨q, hq, hlt, hle, hold⟩ := h.slots j hj
      exact ⟨q, hq, hlt, hle, by rw [← setSequence_of_ne s hne] at hold; exact hold⟩
  · change (s.setSequence (pos % N) (pos + 1)).sequence (p % N) ≤ p at hle
    have hold : s.sequence (p % N) ≤ p ∧ p ≠ pos := by
      by_cases hslot : p % N = pos % N
      · rw [hslot, setSequence_self] at hle
        rw [hslot, hseq]
        omega
      · rw [setSequence_of_ne s hslot] at hle
        exact ⟨hle, fun he => hslot (he ▸ rfl)⟩
    refine exists_update (P := fun x => x.produces = some p) ht (h.produced p hp hold.1) ?_
    intro hp
    exact absurd (Option.some.inj hp).symm hold.2
  · change (s.setSequence (pos % N) (pos + 1)).sequence (p % N) = p + 1 at hs
    by_cases hslot : p % N = pos % N
    · rw [hslot, setSequence_self] at hs
      have hp' : p < s.tail := hp
      omega
    · rw [setSequence_of_ne s hslot] at hs
      exact exists_update (P := fun x => x.consumes = some p) ht (h.consumed p hp hs) nofun
  · change (s.setSequence (pos % N) (pos + 1)).sequence (p % N) = p at hs
    by_cases hslot : p % N = pos % N
    · have hmod := mod_cases hslot
      rw [hslot, setSequence_self] at hs
      omega
    · rw [setSequence_of_ne s hslot] at hs
      refine (h.empty p hs).imp_right fun hpub => exists_update (P := (· = .publish p)) ht hpub ?_
      intro hp
      exact absurd (by cases hp; rfl) hslot
  · change (s.setSequence (pos % N) (pos + 1)).sequence (p % N) = p + 1 at hs
    by_cases hslot : p % N = pos % N
    · rw [hslot, setSequence_self] at hs
      obtain rfl : p = pos := by omega
      exact hpay
    · rw [setSequence_of_ne s hslot] at hs
      exact h.full p hs hp
  · refine forall_update (P := PcOk N L _) trivial fun t' hne =>
      (h.pcs t').frame (h.head ▸ h.tail) List.prefix_rfl le_rfl (fun p => ?_) (fun p hp hle => ?_)
        fun p hp => ⟨setSequence_of_ne s (h.other_slot hN hholds hne hp) _, rfl⟩
    · change s.sequence (p % N) ≤ (s.setSequence (pos % N) (pos + 1)).sequence (p % N)
      by_cases hslot : p % N = pos % N
      · rw [hslot, setSequence_self]
        omega
      · rw [setSequence_of_ne s hslot]
    · change (s.setSequence (pos % N) (pos + 1)).sequence (p % N) ≤ p
      by_cases hslot : p % N = pos % N
      · have hne' : p ≠ pos := fun he => hne (h.producer t' t p hp (by rw [ht, he]; rfl))
        rw [hslot] at hle ⊢
        rw [setSequence_self]
        omega
      · rw [setSequence_of_ne s hslot]
        exact hle

/-- The successful `compare_exchange_weak`. -/
theorem Inv.claim (h : Inv N L s) (hN : 2 ≤ N) (ht : s.threads t = .claim s.tail) :
    Inv N L ({ s with tail := s.tail + 1 }.goto t (.exchange s.tail)) := by
  obtain ⟨-, hlt⟩ : PcOk N L s (.claim s.tail) := ht ▸ h.pcs t
  have hseq := h.claimable hN hlt
  have hfilled := h.filled hN hseq
  refine ⟨h.head, hfilled.1, fun j hj => ?_, fun p hp hle => ?_, fun p hp hs => ?_, fun p hs => ?_,
    fun p hs hp => ?_, unique_update_of_keep ht h.producer (.inl rfl), ?_, ?_⟩
  · obtain ⟨q, hq, hlt', hle, hold⟩ := h.slots j hj
    have hmod : q % N = s.tail % N → s.sequence j = s.tail + 1 := fun he => by
      rw [← hq, he, hseq]
    have hnext : s.tail ≠ q + N := by
      intro he
      have hs := hmod (by rw [he, Nat.add_mod_right])
      omega
    have hself : s.tail ≠ q ∨ s.sequence j = q + 1 := by
      by_cases he : s.tail = q
      · exact .inr (he ▸ hmod (he ▸ rfl))
      · exact .inl he
    refine ⟨q, hq, ?_, ?_, ?_⟩
    · change q < s.tail + 1 + N
      omega
    · change s.tail + 1 ≤ q + N
      omega
    · change s.sequence j = q ∧ s.tail + 1 ≤ q ∨ s.sequence j = q + 1 ∧ q < s.head
      omega
  · exact exists_update (P := fun x => x.produces = some p) ht (h.produced p hp hle) nofun
  · rcases Nat.lt_succ_iff_lt_or_eq.mp hp with hlt' | rfl
    · exact exists_update (P := fun x => x.consumes = some p) ht (h.consumed p hlt' hs) nofun
    · exact ⟨t, by simp [State.goto, Pc.consumes]⟩
  · exact (h.empty p hs).imp_right fun hpub => exists_update (P := (· = .publish p)) ht hpub nofun
  · exact h.full p hs (Nat.le_of_succ_le hp)
  · refine unique_update h.consumer fun p hp => .inr fun t' ht' => ?_
    have hp' := ((h.pcs t').consumes ht').1
    have heq : s.tail = p := by simpa [Pc.consumes] using hp
    omega
  · exact forall_update (P := PcOk N L _) ⟨Nat.lt_succ_self _, hseq, h.full _ hseq le_rfl⟩
      fun t' _ => (h.pcs t').frame (h.head ▸ h.tail) List.prefix_rfl (Nat.le_succ _)
        (fun _ => le_rfl) (fun _ _ hle => hle) fun _ _ => ⟨rfl, rfl⟩

/-- The exchange that takes the payload. -/
theorem Inv.exchange (h : Inv N L s) (hN : 2 ≤ N) {pos : ℕ} (ht : s.threads t = .exchange pos) :
    Inv N L ((s.setPayload (pos % N) none).goto t (.release pos (s.payload (pos % N)))) := by
  obtain ⟨hlt, hseq, hpay⟩ : PcOk N L s (.exchange pos) := ht ▸ h.pcs t
  have hholds : (s.threads t).holds = some pos := by rw [ht]; rfl
  refine ⟨h.head, h.tail, h.slots, fun p hp hle => ?_, fun p hp hs => ?_, fun p hs => ?_,
    fun p hs hp => ?_, unique_update_of_keep ht h.producer (.inl rfl),
    unique_update_of_keep ht h.consumer (.inr rfl), ?_⟩
  · exact exists_update (P := fun x => x.produces = some p) ht (h.produced p hp hle) nofun
  · exact exists_update (P := fun x => x.consumes = some p) ht (h.consumed p hp hs) id
  · by_cases hslot : p % N = pos % N
    · exact .inl (hslot ▸ setPayload_self s _ _)
    · refine Or.imp (fun hnone => ?_) (fun hpub => ?_) (h.empty p hs)
      · exact (setPayload_of_ne s hslot _).trans hnone
      · exact exists_update (P := (· = .publish p)) ht hpub nofun
  · change s.sequence (p % N) = p + 1 at hs
    have hslot : p % N ≠ pos % N := by
      intro he
      have hp' : s.tail ≤ p := hp
      rw [he] at hs
      omega
    exact (setPayload_of_ne s hslot _).trans (h.full p hs hp)
  · refine forall_update (P := PcOk N L _) ⟨hlt, hseq, setPayload_self s _ _, hpay⟩ fun t' hne =>
      (h.pcs t').frame (h.head ▸ h.tail) List.prefix_rfl le_rfl (fun _ => le_rfl)
        (fun _ _ hle => hle) fun p hp => ⟨rfl, ?_⟩
    exact setPayload_of_ne s (h.other_slot hN hholds hne hp) _

/-- The store of `pos + kRingSize`, after which the slot awaits its next producer. -/
theorem Inv.release (h : Inv N L s) (hN : 2 ≤ N) {pos : ℕ} {raw : Option α}
    (ht : s.threads t = .release pos raw) :
    Inv N L ((s.setSequence (pos % N) (pos + N)).goto t (.returned raw)) := by
  obtain ⟨hlt, hseq, hnone, -⟩ : PcOk N L s (.release pos raw) := ht ▸ h.pcs t
  have hholds : (s.threads t).holds = some pos := by rw [ht]; rfl
  have hfilled := h.filled hN hseq
  refine ⟨h.head, h.tail, fun j hj => ?_, fun p hp hle => ?_, fun p hp hs => ?_, fun p hs => ?_,
    fun p hs hp => ?_, unique_update_of_keep ht h.producer (.inl rfl),
    unique_update_of_keep ht h.consumer (.inl rfl), ?_⟩
  · rcases eq_or_ne j (pos % N) with rfl | hne
    · refine ⟨pos + N, Nat.add_mod_right pos N, ?_, ?_, .inl ⟨setSequence_self _ _ _, hfilled.2.2⟩⟩
      · exact Nat.add_lt_add_right hlt N
      · exact hfilled.2.2.trans (Nat.le_add_right _ _)
    · obtain ⟨q, hq, hlt, hle, hold⟩ := h.slots j hj
      exact ⟨q, hq, hlt, hle, by rw [← setSequence_of_ne s hne] at hold; exact hold⟩
  · change (s.setSequence (pos % N) (pos + N)).sequence (p % N) ≤ p at hle
    have hold : s.sequence (p % N) ≤ p := by
      by_cases hslot : p % N = pos % N
      · rw [hslot, setSequence_self] at hle
        rw [hslot, hseq]
        omega
      · rwa [setSequence_of_ne s hslot] at hle
    exact exists_update (P := fun x => x.produces = some p) ht (h.produced p hp hold) nofun
  · change (s.setSequence (pos % N) (pos + N)).sequence (p % N) = p + 1 at hs
    by_cases hslot : p % N = pos % N
    · have hmod := mod_cases hslot
      rw [hslot, setSequence_self] at hs
      omega
    · rw [setSequence_of_ne s hslot] at hs
      refine exists_update (P := fun x => x.consumes = some p) ht (h.consumed p hp hs) ?_
      intro hp
      exact absurd (by cases hp; rfl) hslot
  · by_cases hslot : p % N = pos % N
    · exact .inl (hslot ▸ hnone)
    · change (s.setSequence (pos % N) (pos + N)).sequence (p % N) = p at hs
      rw [setSequence_of_ne s hslot] at hs
      exact (h.empty p hs).imp_right fun hpub =>
        exists_update (P := (· = .publish p)) ht hpub nofun
  · change (s.setSequence (pos % N) (pos + N)).sequence (p % N) = p + 1 at hs
    by_cases hslot : p % N = pos % N
    · have hmod := mod_cases hslot
      rw [hslot, setSequence_self] at hs
      omega
    · rw [setSequence_of_ne s hslot] at hs
      exact h.full p hs hp
  · refine forall_update (P := PcOk N L _) trivial fun t' hne =>
      (h.pcs t').frame (h.head ▸ h.tail) List.prefix_rfl le_rfl (fun p => ?_) (fun p hp hle => ?_)
        fun p hp => ⟨setSequence_of_ne s (h.other_slot hN hholds hne hp) _, rfl⟩
    · change s.sequence (p % N) ≤ (s.setSequence (pos % N) (pos + N)).sequence (p % N)
      by_cases hslot : p % N = pos % N
      · rw [hslot, setSequence_self]
        omega
      · rw [setSequence_of_ne s hslot]
    · change (s.setSequence (pos % N) (pos + N)).sequence (p % N) ≤ p
      by_cases hslot : p % N = pos % N
      · have hmod := mod_cases hslot
        rw [hslot] at hle ⊢
        rw [setSequence_self]
        omega
      · rw [setSequence_of_ne s hslot]
        exact hle

end Steps

section Tasks
variable {pos : ℕ} {task : α}

/-- The payload of a position is written into an empty slot. -/
theorem Inv.empty_of_store (h : Inv N L s) {t : θ} (ht : s.threads t = .store pos task) :
    s.payload (pos % N) = none := by
  obtain ⟨-, hseq⟩ : PcOk N L s (.store pos task) := ht ▸ h.pcs t
  rcases h.empty pos hseq with hnone | ⟨t', ht'⟩
  · exact hnone
  · have he := h.producer t t' pos (by rw [ht]; rfl) (by rw [ht']; rfl)
    rw [← he, ht] at ht'
    cases ht'

/-- The task of a position that nobody has claimed is in its slot or with its producer. -/
theorem Inv.waiting (h : Inv N L s) (hN : 2 ≤ N) (hpos : s.tail ≤ pos) (hget : L[pos]? = some task) :
    s.payload (pos % N) = some task ∨
      ∃ t, s.threads t = .await pos task ∨ s.threads t = .store pos task := by
  have hlt := (List.getElem?_eq_some_iff.mp hget).1
  by_cases hseq : s.sequence (pos % N) ≤ pos
  · obtain ⟨t, ht⟩ := h.produced pos (h.head ▸ hlt) hseq
    have hok := h.pcs t
    cases hpc : s.threads t <;> rw [hpc] at ht hok <;>
      simp only [Pc.produces, Option.some.injEq, reduceCtorEq] at ht <;> subst ht
    · obtain rfl : task = _ := Option.some.inj (hget.symm.trans hok.1)
      exact .inr ⟨t, .inl hpc⟩
    · obtain rfl : task = _ := Option.some.inj (hget.symm.trans hok.1)
      exact .inr ⟨t, .inr hpc⟩
    · exact .inl (hok.2.2.trans hget)
  · obtain ⟨q, hq, hlt', hle, hold⟩ := h.slot_of hN pos
    have hfull : s.sequence (pos % N) = pos + 1 := by omega
    exact .inl ((h.full pos hfull hpos).trans hget)

/-- A thread that consumes a position has the task of that position in its slot or in hand. -/
theorem Inv.consuming (h : Inv N L s) {t : θ} (ht : (s.threads t).consumes = some pos) :
    s.threads t = .exchange pos ∧ s.payload (pos % N) = L[pos]? ∨
      s.threads t = .release pos L[pos]? := by
  have hok := h.pcs t
  cases hpc : s.threads t <;> rw [hpc] at ht hok <;>
    simp only [Pc.consumes, Option.some.injEq, reduceCtorEq] at ht <;> subst ht
  · exact .inl ⟨rfl, hok.2.2⟩
  · exact .inr (by rw [hok.2.2.2])

end Tasks

section Words
variable {log2Ring : ℕ}

theorem slot_eq (log2Ring pos : ℕ) : slot log2Ring pos = pos % kRingSize log2Ring :=
  Nat.and_two_pow_sub_one_eq_mod pos log2Ring

theorem uint64_of_lt {x : ℕ} (h : x < 2 ^ 64) : uint64 x = x := Nat.mod_eq_of_lt h

theorem diff_eq_zero_iff {seq pos : ℕ} (hseq : seq < 2 ^ 64) (hpos : pos + 1 < 2 ^ 64) :
    diff seq pos = 0 ↔ seq = pos + 1 := by
  unfold diff int64
  rw [uint64_of_lt hpos, Int.bmod_sub_bmod, Int.sub_bmod_bmod, Int.bmod_def]
  constructor
  · intro h
    split_ifs at h <;> omega
  · rintro rfl
    simp

theorem two_le_kRingSize (h : 1 ≤ log2Ring) : 2 ≤ kRingSize log2Ring :=
  Nat.pow_le_pow_right (Nat.succ_pos 1) h

theorem kRingSize_le (h : log2Ring ≤ 63) : kRingSize log2Ring ≤ 2 ^ 63 :=
  Nat.pow_le_pow_right (Nat.succ_pos 1) h

end Words

theorem reserved_eq_some {a : Action θ α} {task : α} (h : reserved s a = some task) :
    ∃ t spurious, a = .access t spurious ∧ s.threads t = .reserve task := by
  cases a with
  | access t spurious =>
    cases hpc : s.threads t <;> simp only [reserved, hpc, reduceCtorEq, Option.some.injEq] at h
    exact ⟨t, spurious, rfl, h ▸ hpc⟩
  | _ => simp [reserved] at h

section Machine
variable [DecidableEq θ] {log2Ring : ℕ} {s' : State θ α} {t : θ} {spurious : Bool}

theorem inv_init : Inv N [] (machine θ α log2Ring).init where
  head := rfl
  tail := le_rfl
  slots j hj := ⟨j, Nat.mod_eq_of_lt hj, by simpa [machine] using hj, Nat.zero_le _,
    .inl ⟨rfl, Nat.zero_le _⟩⟩
  produced p hp := absurd hp (Nat.not_lt_zero p)
  consumed p hp := absurd hp (Nat.not_lt_zero p)
  empty p _ := .inl rfl
  full p hseq := by
    have hle := Nat.mod_le p N
    have hp : p % N = p + 1 := hseq
    omega
  producer t t' p ht := by cases ht
  consumer t t' p ht := by cases ht
  pcs _ := trivial

/-- An access other than a reservation, as long as the cursors do not wrap. -/
theorem Inv.access (h : Inv (kRingSize log2Ring) L s) (hlo : 1 ≤ log2Ring) (hhi : log2Ring ≤ 63)
    (hs : access log2Ring s t spurious = some s') (hsmall : L.length < 2 ^ 63)
    (hres : reserved s (.access t spurious) = none) : Inv (kRingSize log2Ring) L s' := by
  have hN := two_le_kRingSize hlo
  have hle := kRingSize_le hhi
  have hhead := h.head
  have htail := h.tail
  have hok := h.pcs t
  cases hpc : s.threads t with
  | await pos task =>
    rw [hpc] at hok
    simp only [Ring.access, hpc] at hs
    split_ifs at hs with hseq <;> cases hs
    · rw [slot_eq] at hseq
      exact h.goto hpc rfl rfl nofun ⟨hok.1, hseq⟩
    · exact h
  | store pos task =>
    simp only [Ring.access, hpc, slot_eq, Option.some.injEq] at hs
    exact hs ▸ h.store hN hpc
  | publish pos =>
    rw [hpc] at hok
    have hlt : pos < L.length := hok.1
    simp only [Ring.access, hpc, slot_eq, Option.some.injEq] at hs
    rw [uint64_of_lt (by omega)] at hs
    exact hs ▸ h.publish hN hpc
  | loadTail =>
    simp only [Ring.access, hpc, Option.some.injEq] at hs
    exact hs ▸ h.goto hpc rfl rfl nofun le_rfl
  | loadSequence pos =>
    rw [hpc] at hok
    have hpos : pos ≤ s.tail := hok
    have hseq := h.sequence_lt hN pos
    simp only [Ring.access, hpc, slot_eq] at hs
    split_ifs at hs with hzero <;> cases hs
    · rw [diff_eq_zero_iff (by omega) (by omega)] at hzero
      exact h.goto hpc rfl rfl nofun ⟨hpos, by omega⟩
    · exact h.goto hpc rfl rfl nofun trivial
    · exact h.goto hpc rfl rfl nofun trivial
  | claim pos =>
    simp only [Ring.access, hpc] at hs
    split_ifs at hs with hwin <;> cases hs
    · obtain ⟨rfl, -⟩ := hwin
      rw [uint64_of_lt (by omega)]
      exact h.claim hN hpc
    · exact h.goto hpc rfl rfl nofun le_rfl
  | exchange pos =>
    simp only [Ring.access, hpc, slot_eq, Option.some.injEq] at hs
    exact hs ▸ h.exchange hN hpc
  | release pos raw =>
    rw [hpc] at hok
    have hlt : pos < s.tail := hok.1
    simp only [Ring.access, hpc, slot_eq, Option.some.injEq] at hs
    rw [uint64_of_lt (by omega)] at hs
    exact hs ▸ h.release hN hpc
  | reserve task => simp [reserved, hpc] at hres
  | idle => simp [Ring.access, hpc] at hs
  | returned r => simp [Ring.access, hpc] at hs

/-- Every step, as long as fewer than `2^63` positions are reserved. -/
theorem inv_step (hlo : 1 ≤ log2Ring) (hhi : log2Ring ≤ 63) {a : Action θ α}
    (h : Inv (kRingSize log2Ring) L s) (hs : step log2Ring s a = some s')
    (hsmall : (L ++ (reserved s a).toList).length < 2 ^ 63) :
    Inv (kRingSize log2Ring) (L ++ (reserved s a).toList) s' := by
  cases a with
  | enqueue t task =>
    cases hpc : s.threads t <;> simp only [step, hpc, reduceCtorEq, Option.some.injEq] at hs
    simp only [reserved, Option.toList_none, List.append_nil]
    exact hs ▸ h.goto hpc rfl rfl nofun trivial
  | dequeue t =>
    cases hpc : s.threads t <;> simp only [step, hpc, reduceCtorEq, Option.some.injEq] at hs
    simp only [reserved, Option.toList_none, List.append_nil]
    exact hs ▸ h.goto hpc rfl rfl nofun trivial
  | finish t =>
    cases hpc : s.threads t <;> simp only [step, hpc, reduceCtorEq, Option.some.injEq] at hs
    simp only [reserved, Option.toList_none, List.append_nil]
    exact hs ▸ h.goto hpc rfl rfl nofun trivial
  | access t spurious =>
    cases hres : reserved s (.access t spurious) with
    | none =>
      rw [hres] at hsmall
      simp only [Option.toList_none, List.append_nil] at hsmall ⊢
      exact h.access hlo hhi hs hsmall hres
    | some task =>
      obtain ⟨t', spurious', ha, hpc⟩ := reserved_eq_some hres
      cases ha
      simp only [step, Ring.access, hpc, Option.some.injEq] at hs
      rw [hres, List.length_append, ← h.head] at hsmall
      simp only [Option.toList_some, List.length_singleton] at hsmall
      rw [uint64_of_lt (by omega)] at hs
      exact hs ▸ h.reserve (two_le_kRingSize hlo) hpc

theorem inv_of_run (hlo : 1 ≤ log2Ring) (hhi : log2Ring ≤ 63) {tr : List (State θ α × Action θ α)}
    (h : Run (machine θ α log2Ring) tr s) (hsmall : (log reserved tr).length < 2 ^ 63) :
    Inv (kRingSize log2Ring) (log reserved tr) s := by
  refine Run.history (I := fun tr s => (log reserved tr).length < 2 ^ 63 →
    Inv (kRingSize log2Ring) (log reserved tr) s) (fun _ => inv_init) ?_ h hsmall
  intro tr u a v ih hs hsmall
  rw [log_snoc] at hsmall ⊢
  refine inv_step hlo hhi (ih ?_) hs hsmall
  rw [List.length_append] at hsmall
  omega

/-- How an operation of the ring moves its thread: an access stays inside the call, which ends
with the thread idle. -/
def Moves (pc : Pc α) : Action θ α → Pc α → Prop
  | .enqueue _ task, pc' => pc = .idle ∧ pc' = .reserve task
  | .dequeue _, pc' => pc = .idle ∧ pc' = .loadTail
  | .finish _, pc' => pc' = .idle ∧ ∃ task, pc = .returned task
  | .access _ _, pc' =>
    pc.isEnqueue ∧ (pc' = .idle ∨ pc'.isEnqueue) ∨ pc.isDequeue ∧ pc'.isDequeue

theorem step_threads {a : Action θ α} (hs : step log2Ring s a = some s') :
    ∃ pc, s'.threads = Function.update s.threads a.thread pc ∧
      Moves (s.threads a.thread) a pc := by
  cases a with
  | enqueue t task =>
    cases hpc : s.threads t <;> simp only [step, hpc, reduceCtorEq, Option.some.injEq] at hs
    subst hs
    exact ⟨_, rfl, hpc, rfl⟩
  | dequeue t =>
    cases hpc : s.threads t <;> simp only [step, hpc, reduceCtorEq, Option.some.injEq] at hs
    subst hs
    exact ⟨_, rfl, hpc, rfl⟩
  | finish t =>
    cases hpc : s.threads t <;> simp only [step, hpc, reduceCtorEq, Option.some.injEq] at hs
    subst hs
    exact ⟨_, rfl, rfl, _, hpc⟩
  | access t spurious =>
    simp only [step] at hs
    simp only [Action.thread]
    cases hpc : s.threads t with
    | await pos task =>
      simp only [Ring.access, hpc] at hs
      split_ifs at hs <;> cases hs
      · exact ⟨_, rfl, .inl ⟨rfl, .inr rfl⟩⟩
      · exact ⟨_, (Function.update_eq_self t s.threads).symm, .inl ⟨rfl, .inr (by rw [hpc]; rfl)⟩⟩
    | loadSequence pos =>
      simp only [Ring.access, hpc] at hs
      split_ifs at hs <;> cases hs <;> exact ⟨_, rfl, .inr ⟨rfl, rfl⟩⟩
    | claim pos =>
      simp only [Ring.access, hpc] at hs
      split_ifs at hs <;> cases hs <;> exact ⟨_, rfl, .inr ⟨rfl, rfl⟩⟩
    | idle => simp [Ring.access, hpc] at hs
    | returned r => simp [Ring.access, hpc] at hs
    | publish pos =>
      simp only [Ring.access, hpc, Option.some.injEq] at hs
      subst hs
      exact ⟨_, rfl, .inl ⟨rfl, .inl rfl⟩⟩
    | reserve task =>
      simp only [Ring.access, hpc, Option.some.injEq] at hs
      subst hs
      exact ⟨_, rfl, .inl ⟨rfl, .inr rfl⟩⟩
    | store pos task =>
      simp only [Ring.access, hpc, Option.some.injEq] at hs
      subst hs
      exact ⟨_, rfl, .inl ⟨rfl, .inr rfl⟩⟩
    | _ =>
      simp only [Ring.access, hpc, Option.some.injEq] at hs
      subst hs
      exact ⟨_, rfl, .inr ⟨rfl, rfl⟩⟩

end Machine

end TaskScheduler.LockFree.Ring
