import TaskScheduler.RingDelivery

/-!
# What `dequeue` reads off a sequence number

The signed difference of a sequence number and the cursor is exact, however old the cursor
is; it is negative only at `tail_` and only while that position is not published.
-/
namespace TaskScheduler.LockFree.Ring
open Transition

variable {θ α : Type*} {log2Ring : ℕ} {L : List α} {s s' : State θ α} {pos : ℕ}

theorem diff_eq {seq : ℕ} (hpos : pos + 1 < 2 ^ 64) (hlo : pos + 1 ≤ seq + 2 ^ 63)
    (hhi : seq < pos + 1 + 2 ^ 63) : diff seq pos = seq - (pos + 1) := by
  unfold diff int64
  rw [uint64_of_lt hpos, Int.bmod_sub_bmod, Int.sub_bmod_bmod]
  exact (Int.bmod_eq_of_le (by omega) (by omega)).trans (by push_cast; rfl)

/-- A slot is at most `2 ^ 63` ahead of a cursor, whatever its generation. -/
theorem Inv.sequence_le (h : Inv (kRingSize log2Ring) L s) (hlo : 1 ≤ log2Ring)
    (hhi : log2Ring ≤ 63) (hlen : s.head < 2 ^ 63) (pos : ℕ) :
    s.sequence (pos % kRingSize log2Ring) ≤ pos + 2 ^ 63 := by
  have hN := two_le_kRingSize hlo
  have htail := h.tail
  obtain ⟨q, hmod, hlt, -, hseq⟩ := h.slots (pos % kRingSize log2Ring) (Nat.mod_lt pos (by omega))
  have hper : (pos + 2 ^ 63) % kRingSize log2Ring = pos % kRingSize log2Ring := by
    have hdvd : kRingSize log2Ring ∣ 2 ^ 63 := Nat.pow_dvd_pow 2 hhi
    rw [Nat.add_mod, Nat.mod_eq_zero_of_dvd hdvd, Nat.add_zero, Nat.mod_mod]
  have hcases := mod_cases (hmod.trans hper.symm)
  omega

/-- The difference that `dequeue` computes at a cursor up to `tail_` is exact. -/
theorem Inv.diff_eq (h : Inv (kRingSize log2Ring) L s) (hlo : 1 ≤ log2Ring) (hhi : log2Ring ≤ 63)
    (hlen : s.head < 2 ^ 63) (hpos : pos ≤ s.tail) :
    diff (s.sequence (slot log2Ring pos)) pos =
      s.sequence (slot log2Ring pos) - ((pos : ℤ) + 1) := by
  have htail := h.tail
  have hle := h.sequence_le hlo hhi hlen pos
  rw [slot_eq]
  exact Ring.diff_eq (by omega) (by omega) (by omega)

/-- A negative difference is read only at `tail_`, while that position is not published. -/
theorem Inv.of_diff_neg (h : Inv (kRingSize log2Ring) L s) (hlo : 1 ≤ log2Ring)
    (hhi : log2Ring ≤ 63) (hlen : s.head < 2 ^ 63) (hpos : pos ≤ s.tail)
    (hneg : diff (s.sequence (slot log2Ring pos)) pos < 0) :
    pos = s.tail ∧ s.sequence (s.tail % kRingSize log2Ring) ≤ s.tail := by
  rw [h.diff_eq hlo hhi hlen hpos, slot_eq] at hneg
  have hpassed := h.passed (p := pos) (two_le_kRingSize hlo)
  obtain rfl : pos = s.tail := by omega
  exact ⟨rfl, by omega⟩

/-- A positive difference is read only behind `tail_`. -/
theorem Inv.of_diff_pos (h : Inv (kRingSize log2Ring) L s) (hlo : 1 ≤ log2Ring)
    (hhi : log2Ring ≤ 63) (hlen : s.head < 2 ^ 63) (hpos : pos ≤ s.tail)
    (hdiff : 0 < diff (s.sequence (slot log2Ring pos)) pos) : pos < s.tail := by
  rw [h.diff_eq hlo hhi hlen hpos, slot_eq] at hdiff
  rcases hpos.lt_or_eq with hlt | rfl
  · exact hlt
  · have hseq := h.claimable (two_le_kRingSize hlo) (by omega)
    omega

/-- The accesses of `dequeue` in the state `s`, as moves of its thread. -/
inductive Looks (log2Ring : ℕ) (s : State θ α) (spurious : Bool) : Pc α → Pc α → Prop
  | load : Looks log2Ring s spurious .loadTail (.loadSequence s.tail)
  | found {pos : ℕ} (h : diff (s.sequence (slot log2Ring pos)) pos = 0) :
      Looks log2Ring s spurious (.loadSequence pos) (.claim pos)
  | empty {pos : ℕ} (h : diff (s.sequence (slot log2Ring pos)) pos < 0) :
      Looks log2Ring s spurious (.loadSequence pos) (.returned none)
  | passed {pos : ℕ} (h : 0 < diff (s.sequence (slot log2Ring pos)) pos) :
      Looks log2Ring s spurious (.loadSequence pos) .loadTail
  | won (h : spurious = false) : Looks log2Ring s spurious (.claim s.tail) (.exchange s.tail)
  | lost {pos : ℕ} (h : ¬ (s.tail = pos ∧ spurious = false)) :
      Looks log2Ring s spurious (.claim pos) (.loadSequence s.tail)
  | exchange {pos : ℕ} : Looks log2Ring s spurious (.exchange pos)
      (.release pos (s.payload (slot log2Ring pos)))
  | release {pos : ℕ} {raw : Option α} :
      Looks log2Ring s spurious (.release pos raw) (.returned raw)

variable [DecidableEq θ] {a : Action θ α} {t : θ} {spurious : Bool}

theorem access_looks (hs : step log2Ring s (.access t spurious) = some s')
    (hdeq : (s.threads t).isDequeue) : Looks log2Ring s spurious (s.threads t) (s'.threads t) := by
  simp only [step] at hs
  cases hpc : s.threads t with
  | loadSequence pos =>
    simp only [access, hpc] at hs
    split_ifs at hs with hzero hneg <;> cases hs <;> rw [goto_threads, Function.update_self]
    · exact .found hzero
    · exact .empty hneg
    · exact .passed (by omega)
  | claim pos =>
    simp only [access, hpc] at hs
    split_ifs at hs with hwin <;> cases hs <;> rw [goto_threads, Function.update_self]
    · obtain ⟨rfl, hsp⟩ := hwin
      exact .won hsp
    · exact .lost hwin
  | loadTail =>
    simp only [access, hpc, Option.some.injEq] at hs
    subst hs
    rw [goto_threads, Function.update_self]
    exact .load
  | exchange pos =>
    simp only [access, hpc, Option.some.injEq] at hs
    subst hs
    rw [goto_threads, Function.update_self]
    exact .exchange
  | release pos raw =>
    simp only [access, hpc, Option.some.injEq] at hs
    subst hs
    rw [goto_threads, Function.update_self]
    exact .release
  | returned r => simp [access, hpc] at hs
  | _ => simp [hpc, Pc.isDequeue] at hdeq

/-- A thread inside `dequeue` stays where it is, or makes its next access, until its caller has
the result. -/
theorem looks_of_step (hs : step log2Ring s a = some s') (hdeq : (s.threads t).isDequeue)
    (hfin : a ≠ .finish t) : a.thread ≠ t ∧ s'.threads t = s.threads t ∨
      ∃ spurious, a = .access t spurious ∧ Looks log2Ring s spurious (s.threads t) (s'.threads t) := by
  obtain ⟨pc, hth, hm⟩ := step_threads hs
  by_cases ht : a.thread = t
  · subst ht
    cases a with
    | access t spurious => exact .inr ⟨spurious, rfl, access_looks hs hdeq⟩
    | finish t => exact absurd rfl hfin
    | enqueue t task =>
      rw [hm.1] at hdeq
      cases hdeq
    | dequeue t =>
      rw [hm.1] at hdeq
      cases hdeq
  · refine .inl ⟨ht, ?_⟩
    rw [hth, Function.update_of_ne (Ne.symm ht)]

/-- How a thread has come to its place inside `dequeue`. -/
theorem dequeue_cases (hs : step log2Ring s a = some s') (h : (s'.threads t).isDequeue) :
    a = .dequeue t ∧ s'.threads t = .loadTail ∨ a.thread ≠ t ∧ s'.threads t = s.threads t ∨
      ∃ spurious, a = .access t spurious ∧ Looks log2Ring s spurious (s.threads t) (s'.threads t) := by
  obtain ⟨pc, hth, hm⟩ := step_threads hs
  by_cases ht : a.thread = t
  · subst ht
    have hself : s'.threads a.thread = pc := by rw [hth, Function.update_self]
    rw [hself] at h
    cases a with
    | access t spurious =>
      rcases hm with ⟨-, rfl | henq⟩ | ⟨hd, -⟩
      · cases h
      · exact absurd h (Pc.not_isDequeue henq)
      · exact .inr (.inr ⟨spurious, rfl, access_looks hs hd⟩)
    | enqueue t task =>
      obtain ⟨-, rfl⟩ := hm
      cases h
    | dequeue t => exact .inl ⟨rfl, hself.trans hm.2⟩
    | finish t =>
      obtain ⟨rfl, -⟩ := hm
      cases h
  · refine .inr (.inl ⟨ht, ?_⟩)
    rw [hth, Function.update_of_ne (Ne.symm ht)]

/-- The position whose `enqueue` completes by this step. -/
def published (s : State θ α) : Action θ α → Option ℕ
  | .access t _ =>
    match s.threads t with
    | .publish pos => some pos
    | _ => none
  | _ => none

variable {tr pre post : List (State θ α × Action θ α)} {u : State θ α}

/-- The steps that store a sequence number: the publication of a position and the release of its
slot. -/
theorem sequence_step (hs : step log2Ring s a = some s') :
    published s a = none ∧ s'.sequence = s.sequence ∨
    (∃ t pos, s.threads t = .publish pos ∧ published s a = some pos ∧
      s'.sequence = Function.update s.sequence (slot log2Ring pos) (uint64 (pos + 1))) ∨
    ∃ t pos raw, s.threads t = .release pos raw ∧ published s a = none ∧
      s'.sequence =
        Function.update s.sequence (slot log2Ring pos) (uint64 (pos + kRingSize log2Ring)) := by
  cases a with
  | access t spurious =>
    simp only [step] at hs
    cases hpc : s.threads t with
    | publish pos =>
      simp only [access, hpc, Option.some.injEq] at hs
      subst hs
      exact .inr (.inl ⟨t, pos, hpc, by simp only [published, hpc], rfl⟩)
    | release pos raw =>
      simp only [access, hpc, Option.some.injEq] at hs
      subst hs
      exact .inr (.inr ⟨t, pos, raw, hpc, by simp only [published, hpc], rfl⟩)
    | await pos task =>
      simp only [access, hpc] at hs
      split_ifs at hs <;> cases hs <;> exact .inl ⟨by simp only [published, hpc], rfl⟩
    | loadSequence pos =>
      simp only [access, hpc] at hs
      split_ifs at hs <;> cases hs <;> exact .inl ⟨by simp only [published, hpc], rfl⟩
    | claim pos =>
      simp only [access, hpc] at hs
      split_ifs at hs <;> cases hs <;> exact .inl ⟨by simp only [published, hpc], rfl⟩
    | idle => simp [access, hpc] at hs
    | returned r => simp [access, hpc] at hs
    | _ =>
      simp only [access, hpc, Option.some.injEq] at hs
      subst hs
      exact .inl ⟨by simp only [published, hpc], rfl⟩
  | enqueue t task =>
    cases hpc : s.threads t <;> simp only [step, hpc, reduceCtorEq, Option.some.injEq] at hs
    subst hs
    exact .inl ⟨rfl, rfl⟩
  | dequeue t =>
    cases hpc : s.threads t <;> simp only [step, hpc, reduceCtorEq, Option.some.injEq] at hs
    subst hs
    exact .inl ⟨rfl, rfl⟩
  | finish t =>
    cases hpc : s.threads t <;> simp only [step, hpc, reduceCtorEq, Option.some.injEq] at hs
    subst hs
    exact .inl ⟨rfl, rfl⟩

/-- From `tail_` on, the positions published are those whose slot is filled. -/
theorem published_iff (hlo : 1 ≤ log2Ring) (hhi : log2Ring ≤ 63)
    (h : Run (machine θ α log2Ring) tr s) (hsmall : (log reserved tr).length < 2 ^ 63) :
    ∀ p, s.tail ≤ p → (p ∈ log published tr ↔ s.sequence (slot log2Ring p) = p + 1) := by
  have hN := two_le_kRingSize hlo
  have hle := kRingSize_le hhi
  induction h with
  | nil =>
    intro p _
    have hp := Nat.mod_le p (kRingSize log2Ring)
    rw [slot_eq]
    refine ⟨fun hmem => absurd hmem List.not_mem_nil, fun heq => ?_⟩
    have hp' : p % kRingSize log2Ring = p + 1 := heq
    omega
  | @snoc tr u v a prior last ih =>
    rw [log_snoc, List.length_append] at hsmall
    have hinv := inv_of_run hlo hhi prior (by omega)
    have hhead := hinv.head
    have htail := hinv.tail
    have hstep := tail_step (by omega) last
    intro p hp
    have hold := ih (by omega) p (by omega)
    simp only [slot_eq] at hold ⊢
    rw [log_snoc, List.mem_append, Option.mem_toList]
    rcases sequence_step last with ⟨hpub, hseq⟩ | ⟨t, pos, hpc, hpub, hseq⟩ |
      ⟨t, pos, raw, hpc, hpub, hseq⟩
    · rw [hpub, hseq, hold]
      simp
    · obtain ⟨hlt, hpos, -⟩ : PcOk _ _ u (.publish pos) := hpc ▸ hinv.pcs t
      rw [hpub, hseq, slot_eq, uint64_of_lt (by omega), Option.some.injEq, hold]
      by_cases hslot : p % kRingSize log2Ring = pos % kRingSize log2Ring
      · have hmod := mod_cases hslot
        rw [hslot, Function.update_self, hpos]
        omega
      · rw [Function.update_of_ne hslot]
        refine or_iff_left ?_
        rintro rfl
        exact hslot rfl
    · obtain ⟨hlt, hpos, -⟩ : PcOk _ _ u (.release pos raw) := hpc ▸ hinv.pcs t
      rw [hpub, hseq, slot_eq, uint64_of_lt (by omega), hold]
      by_cases hslot : p % kRingSize log2Ring = pos % kRingSize log2Ring
      · have hmod := mod_cases hslot
        rw [hslot, Function.update_self, hpos]
        simp only [reduceCtorEq, or_false]
        omega
      · rw [Function.update_of_ne hslot]
        simp

/-- The producer that reserved the position at `tail_` is inside `enqueue`, and a later position
is published. -/
def Stalled (log2Ring : ℕ) (s : State θ α) : Prop :=
  (∃ t, (s.threads t).produces = some s.tail) ∧
    ∃ p < s.head, s.tail < p ∧ s.sequence (slot log2Ring p) = p + 1

instance [Fintype θ] (log2Ring : ℕ) (s : State θ α) : Decidable (Stalled log2Ring s) :=
  inferInstanceAs (Decidable (_ ∧ _))

/-- `dequeue` reads the sequence number of the position at `tail_` in such a state. -/
def Overlooks (log2Ring : ℕ) (t : θ) (s : State θ α) : Action θ α → Prop
  | .access t' _ => t' = t ∧ s.threads t = .loadSequence s.tail ∧ Stalled log2Ring s
  | _ => False

instance [Fintype θ] [DecidableEq α] (log2Ring : ℕ) (t : θ) (s : State θ α) (a : Action θ α) :
    Decidable (Overlooks log2Ring t s a) :=
  match a with
  | .access _ _ => inferInstanceAs (Decidable (_ ∧ _ ∧ _))
  | .enqueue _ _ | .dequeue _ | .finish _ => inferInstanceAs (Decidable False)

/-- A `dequeue` that returns null has read a sequence number behind its cursor, as the last access
of its thread. -/
theorem empty_read (hlo : 1 ≤ log2Ring) (hhi : log2Ring ≤ 63)
    (h : Run (machine θ α log2Ring) tr s) (hsmall : (log reserved tr).length < 2 ^ 63)
    (ht : s.threads t = .returned none) :
    ∃ pre v spurious pos post, tr = pre ++ (v, .access t spurious) :: post ∧
      v.threads t = .loadSequence pos ∧ diff (v.sequence (slot log2Ring pos)) pos < 0 ∧
      ∀ e ∈ post, e.2.thread ≠ t := by
  induction h with
  | nil => cases ht
  | @snoc tr u v a prior last ih =>
    rw [log_snoc, List.length_append] at hsmall
    rcases dequeue_cases last (by rw [ht]; rfl) with ⟨-, hload⟩ | ⟨hne, hsame⟩ |
      ⟨spurious, rfl, hlook⟩
    · rw [ht] at hload
      cases hload
    · obtain ⟨pre, w, spurious, pos, post, rfl, hpos, hneg, hpost⟩ :=
        ih (by omega) (hsame.symm.trans ht)
      refine ⟨pre, w, spurious, pos, post ++ [(u, a)], by simp, hpos, hneg, fun e he => ?_⟩
      rcases List.mem_append.mp he with he | he
      · exact hpost e he
      · rw [List.mem_singleton.mp he]
        exact hne
    · have hinv := inv_of_run hlo hhi prior (by omega)
      have hok := hinv.pcs t
      rw [ht] at hlook
      generalize hpc : u.threads t = pc at *
      cases hlook with
      | empty hneg => exact ⟨tr, u, spurious, _, [], rfl, hpc, hneg, by simp⟩
      | @release pos _ =>
        obtain ⟨hlt, -, -, hnone⟩ := hok
        have htail := hinv.tail
        rw [hinv.head] at htail
        rw [List.getElem?_eq_getElem (by omega)] at hnone
        cases hnone

/-- The last read of a call that returns null is at `tail_`, and finds the position unpublished. -/
theorem read_of_call (hlo : 1 ≤ log2Ring) (hhi : log2Ring ≤ 63)
    (h : Run (machine θ α log2Ring) (pre ++ (u, .dequeue t) :: post) s)
    (hsmall : (log reserved (pre ++ (u, .dequeue t) :: post)).length < 2 ^ 63)
    (ht : s.threads t = .returned none) : ∃ mid v spurious rest,
      post = mid ++ (v, .access t spurious) :: rest ∧ v.threads t = .loadSequence v.tail ∧
        v.sequence (slot log2Ring v.tail) ≤ v.tail := by
  obtain ⟨pre', v, spurious, pos, rest, htr, hpos, hneg, hrest⟩ := empty_read hlo hhi h hsmall ht
  obtain ⟨mid, rfl, rfl⟩ : ∃ mid, pre' = pre ++ (u, .dequeue t) :: mid ∧
      post = mid ++ (v, .access t spurious) :: rest := by
    rcases List.append_eq_append_iff.mp htr with
      ⟨_ | ⟨e, mid⟩, rfl, he⟩ | ⟨_ | ⟨e, mid⟩, rfl, he⟩
    · cases he
    · cases he
      exact ⟨mid, rfl, rfl⟩
    · cases he
    · cases he
      exact absurd rfl (hrest (u, .dequeue t) (by simp))
  rw [htr] at h hsmall
  rw [log_append, List.length_append] at hsmall
  have hinv := inv_of_run hlo hhi h.split_at.1 (by omega)
  have hok := hinv.pcs t
  rw [hpos] at hok
  obtain ⟨rfl, hseq⟩ := hinv.of_diff_neg hlo hhi (by rw [hinv.head]; omega) hok hneg
  rw [← slot_eq] at hseq
  exact ⟨mid, v, spurious, rest, rfl, hpos, hseq⟩

/-- Where the read at `tail_` finds an unpublished position, nothing published is unclaimed unless
a producer stalls. -/
theorem claimed_of_read (hlo : 1 ≤ log2Ring) (hhi : log2Ring ≤ 63)
    (h : Run (machine θ α log2Ring) tr s) (hsmall : (log reserved tr).length < 2 ^ 63)
    (hseq : s.sequence (slot log2Ring s.tail) ≤ s.tail) (hs : ¬ Stalled log2Ring s) :
    ∀ p ∈ log published tr, p ∈ log claimed tr := by
  have hinv := inv_of_run hlo hhi h hsmall
  intro p hp
  rw [(history_of_run hlo hhi h hsmall).claims, List.mem_range]
  by_contra hle
  have hfull := (published_iff hlo hhi h hsmall p (not_lt.mp hle)).mp hp
  have hne : p ≠ s.tail := by
    rintro rfl
    omega
  have hhead : p < s.head := by
    rw [slot_eq] at hfull
    exact (hinv.filled (two_le_kRingSize hlo) hfull).1
  rw [slot_eq] at hseq
  exact hs ⟨hinv.produced s.tail (by omega) hseq, p, hhead, by omega, hfull⟩

/-- While a producer stalls, a position is published and not claimed. -/
theorem Stalled.unclaimed (hs : Stalled log2Ring s) (hlo : 1 ≤ log2Ring) (hhi : log2Ring ≤ 63)
    (h : Run (machine θ α log2Ring) tr s) (hsmall : (log reserved tr).length < 2 ^ 63) :
    ∃ p ∈ log published tr, p ∉ log claimed tr := by
  obtain ⟨-, p, -, hlt, hseq⟩ := hs
  refine ⟨p, (published_iff hlo hhi h hsmall p hlt.le).mpr hseq, ?_⟩
  rw [(history_of_run hlo hhi h hsmall).claims, List.mem_range]
  exact hlt.le.not_gt

/-- The read at `tail_` answers null while a producer stalls. -/
theorem Stalled.answer (hs : Stalled log2Ring s) (hlo : 1 ≤ log2Ring) (hhi : log2Ring ≤ 63)
    (h : Run (machine θ α log2Ring) tr s) (hsmall : (log reserved tr).length < 2 ^ 63) {t : θ}
    (ht : s.threads t = .loadSequence s.tail) (spurious : Bool) :
    step log2Ring s (.access t spurious) = some (s.goto t (.returned none)) := by
  have hinv := inv_of_run hlo hhi h hsmall
  obtain ⟨⟨t', hprod⟩, -⟩ := hs
  have hle := ((hinv.pcs t').produces hprod).2
  have hdiff := hinv.diff_eq hlo hhi (by rw [hinv.head]; exact hsmall) le_rfl
  rw [← slot_eq] at hle
  simp only [step, access, ht]
  rw [if_neg (by omega), if_pos (by omega)]

/-- At every moment of the steps `post`, a position had been published and not claimed. -/
def Hidden (pre post : List (State θ α × Action θ α)) : Prop :=
  ∀ mid, mid <+: post → ∃ p ∈ log published (pre ++ mid), p ∉ log claimed (pre ++ mid)

omit [DecidableEq θ] in
theorem mem_log_of_prefix {o : State θ α → Action θ α → Option ℕ} {p : ℕ} (h : pre <+: post)
    (hp : p ∈ log o pre) : p ∈ log o post := (h.sublist.filterMap _).subset hp

theorem Stalled.goto (hs : Stalled log2Ring s) {t : θ} {pc : Pc α}
    (ht : (s.threads t).produces = none) : Stalled log2Ring (s.goto t pc) := by
  refine ⟨exists_update (P := fun x => x.produces = some s.tail) rfl hs.1 fun hp => ?_, hs.2⟩
  rw [ht] at hp
  cases hp

/-- A call of `dequeue` that no other thread interrupts, begun while a producer stalls. -/
theorem Stalled.call (hs : Stalled log2Ring s) (hlo : 1 ≤ log2Ring) (hhi : log2Ring ≤ 63)
    (h : Run (machine θ α log2Ring) tr s) (hsmall : (log reserved tr).length < 2 ^ 63) {t : θ}
    (ht : s.threads t = .idle) : ∃ post s',
      Run (machine θ α log2Ring) (tr ++ (s, .dequeue t) :: post) s' ∧
        s'.threads t = .returned none ∧ (∀ e ∈ post, e.2 = .access t false) ∧
        Hidden (tr ++ [(s, .dequeue t)]) post := by
  let s₁ := s.goto t .loadTail
  let s₂ := s₁.goto t (.loadSequence s.tail)
  have hs₁ : (machine θ α log2Ring).step s (.dequeue t) = some s₁ := by
    simp [machine, step, ht, s₁]
  have hs₂ : (machine θ α log2Ring).step s₁ (.access t false) = some s₂ := by
    simp [machine, step, access, s₁, s₂]
  have hrun := (h.snoc hs₁).snoc hs₂
  have hnone : log claimed (tr ++ [(s, .dequeue t)] ++
      [(s₁, .access t false), (s₂, .access t false)]) = log claimed tr := by
    simp [log, claimed, s₁, s₂]
  have hstall : Stalled log2Ring s₂ :=
    (hs.goto (by rw [ht]; rfl)).goto (by rw [goto_self]; rfl)
  have hs₃ : (machine θ α log2Ring).step s₂ (.access t false) =
      some (s₂.goto t (.returned none)) :=
    hstall.answer hlo hhi hrun (by simpa [log, reserved, s₁] using hsmall) (goto_self _ _ _) false
  refine ⟨[(s₁, .access t false), (s₂, .access t false)], s₂.goto t (.returned none), ?_,
    goto_self _ _ _, by simp, fun mid hmid => ?_⟩
  · simpa [Run] using hrun.snoc hs₃
  · obtain ⟨p, hp, hclaim⟩ := hs.unclaimed hlo hhi h hsmall
    refine ⟨p, ?_, fun hmem => hclaim ?_⟩
    · rw [List.append_assoc, log_append]
      exact List.mem_append_left _ hp
    · rw [← hnone]
      exact mem_log_of_prefix ((List.prefix_append_right_inj _).mpr hmid) hmem

/-- A `dequeue` that returns null has, at some moment of the call, found every position published
by then claimed, unless it read the slot at `tail_` while the producer of that position stalled in
front of a published one. Such a read returns null while a task that has been enqueued is
unclaimed, and a call begun in such a state can return null with that task hidden all the while. -/
theorem empty_answer (hlo : 1 ≤ log2Ring) (hhi : log2Ring ≤ 63)
    (h : Run (machine θ α log2Ring) tr s) (hsmall : (log reserved tr).length < 2 ^ 63) :
    (∀ pre u t post, tr = pre ++ (u, .dequeue t) :: post → s.threads t = .returned none →
      (∀ e ∈ post, ¬ Overlooks log2Ring t e.1 e.2) → ∃ mid v b rest, post = mid ++ (v, b) :: rest ∧
        ∀ p ∈ log published (pre ++ (u, .dequeue t) :: mid),
          p ∈ log claimed (pre ++ (u, .dequeue t) :: mid)) ∧
    (∀ pre u a t post, tr = pre ++ (u, a) :: post → Overlooks log2Ring t u a →
      step log2Ring u a = some (u.goto t (.returned none)) ∧
        ∃ p ∈ log published pre, p ∉ log claimed pre) ∧
    ∀ t, s.threads t = .idle → Stalled log2Ring s → ∃ post s',
      Run (machine θ α log2Ring) (tr ++ (s, .dequeue t) :: post) s' ∧
        s'.threads t = .returned none ∧ (∀ e ∈ post, e.2 = .access t false) ∧
        Hidden (tr ++ [(s, .dequeue t)]) post := by
  refine ⟨?_, ?_, fun t ht hs => hs.call hlo hhi h hsmall ht⟩
  · rintro pre u t post rfl ht hC
    obtain ⟨mid, v, spurious, rest, rfl, hpos, hseq⟩ := read_of_call hlo hhi h hsmall ht
    refine ⟨mid, v, _, rest, rfl, ?_⟩
    rw [← List.cons_append, ← List.append_assoc] at h hsmall
    rw [log_append, List.length_append] at hsmall
    refine claimed_of_read hlo hhi h.split_at.1 (by omega) hseq fun hs => ?_
    exact hC (v, .access t spurious) (by simp) ⟨rfl, hpos, hs⟩
  · rintro pre u a t post rfl ho
    cases a with
    | access t' spurious =>
      obtain ⟨rfl, ht, hs⟩ := ho
      rw [log_append, List.length_append] at hsmall
      have hrun := h.split_at.1
      exact ⟨hs.answer hlo hhi hrun (by omega) ht spurious, hs.unclaimed hlo hhi hrun (by omega)⟩
    | _ => cases ho

/-- A call of `enqueue` that no other thread interrupts. -/
def enqueueCall (t : θ) (task : α) : List (Action θ α) :=
  .enqueue t task :: List.replicate 4 (.access t false)

/-- A call of `dequeue` that no other thread interrupts and that finds a task. -/
def dequeueCall (t : θ) : List (Action θ α) :=
  .dequeue t :: (List.replicate 5 (.access t false) ++ [.finish t])

/-- A task goes through the ring and a producer stalls with the next position. A call of `dequeue`
by thread 2 then returns null, and thread 1 completes an `enqueue`. -/
def hinderedSchedule : List (Action (Fin 3) Unit) := List.flatten
  [enqueueCall 1 (), dequeueCall 1, [.enqueue 0 (), .access 0 false, .dequeue 2],
    List.replicate 2 (.access 2 false), enqueueCall 1 ()]

/-- The run of that schedule. -/
def hinderedRun : List (State (Fin 3) Unit × Action (Fin 3) Unit) :=
  record (machine (Fin 3) Unit 17) (machine (Fin 3) Unit 17).init hinderedSchedule

/-- Everything published is claimed at some moment of that call; thread 1 can call `dequeue` with
its own task hidden. -/
theorem empty_answer_hindered : ∃ pre u post s, hinderedRun = pre ++ (u, .dequeue 2) :: post ∧
    Run (machine (Fin 3) Unit 17) hinderedRun s ∧
    (∃ mid v b rest, post = mid ++ (v, b) :: rest ∧
      ∀ p ∈ log published (pre ++ (u, .dequeue 2) :: mid),
        p ∈ log claimed (pre ++ (u, .dequeue 2) :: mid)) ∧
    ∃ post' s', Run (machine (Fin 3) Unit 17) (hinderedRun ++ (s, .dequeue 1) :: post') s' ∧
      s'.threads 1 = .returned none ∧ (∀ e ∈ post', e.2 = .access 1 false) ∧
      Hidden (hinderedRun ++ [(s, .dequeue 1)]) post' := by
  have hen : (exec (machine (Fin 3) Unit 17) (machine (Fin 3) Unit 17).init hinderedSchedule).any
      fun s => decide (s.threads 2 = .returned none ∧ s.threads 1 = .idle ∧ Stalled 17 s) := by
    decide +kernel
  obtain ⟨s, hs, hend⟩ := (Option.any_eq_true _ _).mp hen
  obtain ⟨hnone, hidle, hstall⟩ := of_decide_eq_true hend
  have hlt : 14 < hinderedRun.length := by decide
  have hact : hinderedRun[14].2 = .dequeue 2 := by rfl
  have htr : hinderedRun =
      hinderedRun.take 14 ++ (hinderedRun[14].1, .dequeue 2) :: hinderedRun.drop 15 := by
    rw [← hact]
    exact (List.take_append_drop 14 hinderedRun).symm.trans
      (congrArg _ (List.drop_eq_getElem_cons hlt))
  have hclear : ∀ e ∈ hinderedRun.drop 15, ¬ Overlooks 17 2 e.1 e.2 := by decide +kernel
  have hall := empty_answer (by decide) (by decide) (exec_steps hs) (by decide)
  exact ⟨_, _, _, s, htr, exec_steps hs, hall.1 _ _ _ _ htr hnone hclear,
    hall.2.2 1 hidle hstall⟩

end TaskScheduler.LockFree.Ring
