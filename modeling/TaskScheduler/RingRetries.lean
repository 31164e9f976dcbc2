import TaskScheduler.RingAnswers

/-!
# The retries of `dequeue`

An iteration that does not return has lost its position to another `dequeue`, or its
`compare_exchange_weak` has failed without cause; the claims of the others bound the number of
iterations.
-/
namespace TaskScheduler.LockFree.Ring
open Transition

variable {θ α : Type*} [DecidableEq θ] {log2Ring : ℕ} {s s' u : State θ α} {a : Action θ α} {t : θ}

/-- The cursor of the iteration of `dequeue` that ends by this step without returning. -/
def retried (log2Ring : ℕ) (s : State θ α) : Action θ α → Option ℕ
  | .access t spurious =>
    match s.threads t with
    | .loadSequence pos =>
      if 0 < diff (s.sequence (slot log2Ring pos)) pos then some pos else none
    | .claim pos => if s.tail = pos ∧ spurious = false then none else some pos
    | _ => none
  | _ => none

/-- The cursor of the iteration that the thread begins to decide by this step. -/
def iterated (t : θ) (s : State θ α) : Action θ α → Option ℕ
  | .access t' _ =>
    match s.threads t' with
    | .loadSequence pos => if t' = t then some pos else none
    | _ => none
  | _ => none

/-- The position whose claim by the thread fails without cause. -/
def failed (t : θ) (s : State θ α) : Action θ α → Option ℕ
  | .access t' spurious =>
    match s.threads t' with
    | .claim pos => if t' = t ∧ s.tail = pos ∧ spurious = true then some pos else none
    | _ => none
  | _ => none

/-- The position that another thread claims. -/
def claimedByOther (t : θ) (s : State θ α) (a : Action θ α) : Option ℕ :=
  if a.thread = t then none else claimed s a

/-- The cursor that the thread goes on with. -/
def Pc.cursor {α : Type*} : Pc α → Option ℕ
  | .loadSequence pos | .claim pos => some pos
  | _ => none

theorem Pc.isDequeue_of_cursor {α : Type*} {pc : Pc α} {pos : ℕ} (h : pc.cursor = some pos) :
    pc.isDequeue := by
  cases pc <;> first | rfl | cases h

/-- How far a `dequeue` that first read `tail_` as `tail₀` has come, after `k` iterations, `c`
claims of others and `f` failures without cause. -/
def Search (tail₀ tail k c f : ℕ) : Pc α → Prop
  | .loadTail => k + tail₀ ≤ tail + f ∧ tail = tail₀ + c
  | .loadSequence pos => k + tail₀ ≤ pos + f ∧ tail = tail₀ + c
  | .claim pos => k + tail₀ ≤ pos + f + 1 ∧ tail = tail₀ + c
  | .exchange _ | .release _ _ | .returned _ => k ≤ c + f + 1
  | _ => False

theorem Search.isDequeue {tail₀ tail k c f : ℕ} {pc : Pc α} (h : Search tail₀ tail k c f pc) :
    pc.isDequeue := by
  cases pc <;> first | rfl | exact h.elim

theorem Search.le {tail₀ tail k c f : ℕ} {pc : Pc α} (h : Search tail₀ tail k c f pc)
    (hpos : ∀ pos, pc.cursor = some pos → pos ≤ tail) : k ≤ c + f + 1 := by
  cases pc with
  | loadSequence pos =>
    have hle := hpos pos rfl
    obtain ⟨hk, hc⟩ := h
    omega
  | claim pos =>
    have hle := hpos pos rfl
    obtain ⟨hk, hc⟩ := h
    omega
  | loadTail =>
    obtain ⟨hk, hc⟩ := h
    omega
  | exchange pos => exact h
  | release pos raw => exact h
  | returned task => exact h
  | _ => exact h.elim

omit [DecidableEq θ] in
theorem PcOk.cursor {N : ℕ} {L : List α} {pc : Pc α} (h : PcOk N L s pc) {pos : ℕ}
    (hpos : pc.cursor = some pos) : pos ≤ s.tail := by
  cases pc <;> simp only [Pc.cursor, reduceCtorEq, Option.some.injEq] at hpos
  · exact hpos ▸ h
  · exact hpos ▸ h.1

section Step
variable {L : List α} (hlo : 1 ≤ log2Ring) (hhi : log2Ring ≤ 63)
  (hinv : Inv (kRingSize log2Ring) L s) (hlen : s.head < 2 ^ 63)
include hlo hhi hinv hlen

theorem Search.step {tail₀ k c f : ℕ} (h : Search tail₀ s.tail k c f (s.threads t))
    (hs : step log2Ring s a = some s') (hfin : a ≠ .finish t) :
    Search tail₀ s'.tail (k + (iterated t s a).toList.length)
      (c + (claimedByOther t s a).toList.length) (f + (failed t s a).toList.length)
      (s'.threads t) := by
  have htail := hinv.tail
  have hmove := tail_step (by omega) hs
  have hok := hinv.pcs t
  rcases looks_of_step hs h.isDequeue hfin with ⟨hne, hsame⟩ | ⟨spurious, rfl, hlook⟩
  · obtain ⟨hit, hf⟩ : iterated t s a = none ∧ failed t s a = none := by
      cases a with
      | access t' spurious =>
        have hne' : t' ≠ t := hne
        cases hpc : s.threads t' <;> simp [iterated, failed, hpc, hne']
      | _ => exact ⟨rfl, rfl⟩
    rw [hsame, hmove, claimedByOther, if_neg hne, hit, hf]
    cases hpc : s.threads t <;> rw [hpc] at h <;> simp only [Search] at h ⊢ <;>
      simp only [Option.toList_none, List.length_nil] <;> omega
  · have hown : claimedByOther t s (.access t spurious) = none := if_pos rfl
    rw [hmove, hown]
    generalize hpc : s.threads t = pc at *
    generalize hpc' : s'.threads t = pc' at *
    cases hlook with
    | load =>
      simp only [iterated, failed, claimed, hpc, Option.toList_none, List.length_nil]
      exact h
    | found hd =>
      simp only [iterated, failed, claimed, hpc, if_true, Option.toList_none, Option.toList_some,
        List.length_nil, List.length_singleton]
      obtain ⟨hk, hc⟩ := h
      exact ⟨by omega, hc⟩
    | empty hd =>
      simp only [iterated, failed, claimed, hpc, if_true, Option.toList_none, Option.toList_some,
        List.length_nil, List.length_singleton]
      obtain ⟨hk, hc⟩ := h
      have hpos := hok.cursor rfl
      change _ ≤ _
      omega
    | passed hd =>
      simp only [iterated, failed, claimed, hpc, if_true, Option.toList_none, Option.toList_some,
        List.length_nil, List.length_singleton]
      obtain ⟨hk, hc⟩ := h
      have hpos := hinv.of_diff_pos hlo hhi hlen (hok.cursor rfl) hd
      exact ⟨by omega, hc⟩
    | won hsp =>
      simp only [iterated, failed, claimed, hpc, hsp, and_self, if_true, Bool.false_eq_true,
        and_false, if_false, Option.toList_none, Option.toList_some, List.length_nil]
      obtain ⟨hk, hc⟩ := h
      change _ ≤ _
      omega
    | @lost pos hlost =>
      simp only [iterated, failed, claimed, hpc, if_neg hlost, Option.toList_none, List.length_nil]
      obtain ⟨hk, hc⟩ := h
      have hpos : pos ≤ s.tail := hok.cursor rfl
      rcases eq_or_ne s.tail pos with heq | hne
      · have hsp : spurious = true := by simpa [heq] using hlost
        simp only [heq, hsp, and_self, if_true, Option.toList_some, List.length_singleton]
        exact ⟨by omega, by omega⟩
      · simp only [hne, false_and, and_false, if_false, Option.toList_none, List.length_nil]
        exact ⟨by omega, hc⟩
    | exchange =>
      simp only [iterated, failed, claimed, hpc, Option.toList_none, List.length_nil]
      exact h
    | release =>
      simp only [iterated, failed, claimed, hpc, Option.toList_none, List.length_nil]
      exact h

end Step

variable {pre post : List (State θ α × Action θ α)}

/-- From any read of `tail_` on, a `dequeue` iterates at most once more than the others claim and
its own claims fail without cause. -/
theorem search_of_run (hlo : 1 ≤ log2Ring) (hhi : log2Ring ≤ 63)
    (h : Run (machine θ α log2Ring) (pre ++ (u, a) :: post) s)
    (hsmall : (log reserved (pre ++ (u, a) :: post)).length < 2 ^ 63)
    (ha : ∃ spurious, a = .access t spurious) (hload : u.threads t = .loadTail)
    (hfin : ∀ e ∈ post, e.2 ≠ .finish t) :
    Search u.tail s.tail (log (iterated t) post).length (log (claimedByOther t) post).length
      (log (failed t) post).length (s.threads t) := by
  induction post using List.reverseRecOn generalizing s with
  | nil =>
    obtain ⟨-, hs⟩ := h.last
    obtain ⟨spurious, rfl⟩ := ha
    simp only [machine, Ring.step, access, hload, Option.some.injEq] at hs
    subst hs
    rw [goto_threads, Function.update_self]
    exact ⟨by simp, rfl⟩
  | append_singleton post e ih =>
    obtain ⟨v, b⟩ := e
    rw [← List.cons_append, ← List.append_assoc] at h hsmall
    obtain ⟨hv, hs⟩ := h.last
    rw [log_snoc, List.length_append] at hsmall
    have hinv := inv_of_run hlo hhi hv (by omega)
    have hsearch := ih hv (by omega) fun e he => hfin e (by simp [he])
    simp only [log_snoc, List.length_append]
    exact hsearch.step hlo hhi hinv (by rw [hinv.head]; omega) hs (hfin (v, b) (by simp))

variable {tr : List (State θ α × Action θ α)}

/-- A cursor is kept from before the step, or is `tail_` as it was. -/
theorem cursor_of_step (hs : step log2Ring s a = some s') {pos : ℕ}
    (h : (s'.threads t).cursor = some pos) :
    (s.threads t).cursor = some pos ∧ (a.thread = t → claimed s a = none) ∨
      pos = s.tail ∧ claimed s a = none := by
  obtain ⟨pc, hth, hm⟩ := step_threads hs
  by_cases hdeq : (s.threads t).isDequeue ∧ a ≠ .finish t
  · rcases looks_of_step hs hdeq.1 hdeq.2 with ⟨hne, hsame⟩ | ⟨spurious, rfl, hlook⟩
    · exact .inl ⟨hsame ▸ h, fun ht => absurd ht hne⟩
    · generalize hpc : s.threads t = old at *
      generalize hpc' : s'.threads t = new at *
      cases hlook with
      | load =>
        cases h
        exact .inr ⟨rfl, by simp only [claimed, hpc]⟩
      | found hd => exact .inl ⟨h, fun _ => by simp only [claimed, hpc]⟩
      | lost hlost =>
        cases h
        exact .inr ⟨rfl, by simp only [claimed, hpc, if_neg hlost]⟩
      | _ => cases h
  · by_cases ht : a.thread = t
    · subst ht
      rw [hth, Function.update_self] at h
      cases a with
      | access t spurious =>
        rcases hm with ⟨-, rfl | henq⟩ | ⟨hd, -⟩
        · cases h
        · exact absurd (Pc.isDequeue_of_cursor h) (Pc.not_isDequeue henq)
        · exact absurd ⟨hd, (by simp)⟩ hdeq
      | enqueue t task =>
        obtain ⟨-, rfl⟩ := hm
        cases h
      | dequeue t =>
        obtain ⟨-, rfl⟩ := hm
        cases h
      | finish t =>
        obtain ⟨rfl, -⟩ := hm
        cases h
    · rw [hth, Function.update_of_ne (Ne.symm ht)] at h
      exact absurd ⟨Pc.isDequeue_of_cursor h, fun hfin => ht (by rw [hfin]; rfl)⟩ hdeq

/-- Of the positions up to `tail_`, a `dequeue` has its cursor only on one that its own thread has
not claimed. -/
theorem claimed_by_other (hlo : 1 ≤ log2Ring) (hhi : log2Ring ≤ 63)
    (h : Run (machine θ α log2Ring) tr s) (hsmall : (log reserved tr).length < 2 ^ 63) {pos : ℕ}
    (ht : (s.threads t).cursor = some pos) :
    ∀ e ∈ tr, claimed e.1 e.2 = some pos → e.2.thread ≠ t := by
  induction h generalizing pos with
  | nil => simp
  | @snoc tr u v a prior last ih =>
    have hlen : (log reserved tr).length < 2 ^ 63 := by
      rw [log_snoc, List.length_append] at hsmall
      omega
    intro e he hclaim hthread
    rw [List.mem_append, List.mem_singleton] at he
    rcases cursor_of_step last ht with ⟨hcur, hown⟩ | ⟨rfl, hown⟩ <;> rcases he with he | rfl
    · exact ih hlen hcur e he hclaim hthread
    · rw [hown hthread] at hclaim
      cases hclaim
    · have hmem : u.tail ∈ log claimed tr := List.mem_filterMap.mpr ⟨e, he, hclaim⟩
      rw [(history_of_run hlo hhi prior hlen).claims] at hmem
      exact List.not_mem_range_self hmem
    · rw [hown] at hclaim
      cases hclaim

/-- `dequeue` goes into another iteration only when another `dequeue` has claimed its position, or
after a failure of its compare-and-swap without cause; so from its first read of `tail_` on it
makes at most one iteration more than other threads claim positions and failures without cause
occur. -/
theorem retries_lost (hlo : 1 ≤ log2Ring) (hhi : log2Ring ≤ 63)
    (h : Run (machine θ α log2Ring) tr s) (hsmall : (log reserved tr).length < 2 ^ 63) :
    (∀ t spurious pos, retried log2Ring s (.access t spurious) = some pos →
      s.threads t = .claim pos ∧ spurious = true ∧ s.tail = pos ∨ pos < s.tail) ∧
    (∀ t pos, s.threads t = .loadSequence pos →
      0 < diff (s.sequence (slot log2Ring pos)) pos →
        ∃ e ∈ tr, claimed e.1 e.2 = some pos ∧ e.2.thread ≠ t) ∧
    ∀ pre u t spurious post, tr = pre ++ (u, .access t spurious) :: post →
      u.threads t = .loadTail → (∀ e ∈ post, e.2 ≠ .finish t) →
        (log (iterated t) post).length ≤
          (log (claimedByOther t) post).length + (log (failed t) post).length + 1 := by
  have hinv := inv_of_run hlo hhi h hsmall
  have hlen : s.head < 2 ^ 63 := by rw [hinv.head]; exact hsmall
  refine ⟨fun t spurious pos hretry => ?_, fun t pos ht hdiff => ?_,
    fun pre u t spurious post htr hload hfin => ?_⟩
  · have hok := hinv.pcs t
    cases hpc : s.threads t <;> simp only [retried, hpc, reduceCtorEq] at hretry
    · split_ifs at hretry with hd
      cases hretry
      exact .inr (hinv.of_diff_pos hlo hhi hlen (hok.cursor (by rw [hpc]; rfl)) hd)
    · split_ifs at hretry with hwin
      cases hretry
      have hle : pos ≤ s.tail := hok.cursor (by rw [hpc]; rfl)
      rcases hle.eq_or_lt with rfl | hlt
      · exact .inl ⟨rfl, by simpa using hwin, rfl⟩
      · exact .inr hlt
  · have hlt := hinv.of_diff_pos hlo hhi hlen ((hinv.pcs t).cursor (by rw [ht]; rfl)) hdiff
    have hmem : pos ∈ log claimed tr := by
      rw [(history_of_run hlo hhi h hsmall).claims]
      exact List.mem_range.mpr hlt
    obtain ⟨e, he, hclaim⟩ := List.mem_filterMap.mp hmem
    exact ⟨e, he, hclaim, claimed_by_other hlo hhi h hsmall (by rw [ht]; rfl) e he hclaim⟩
  · subst htr
    have hsearch := search_of_run hlo hhi h hsmall ⟨spurious, rfl⟩ hload hfin
    exact hsearch.le fun pos hpos => (hinv.pcs t).cursor hpos

/-- Two consumers read the same cursor; the one that is late finds its position claimed, the slot
in its next generation, and reads `tail_` again. -/
def lateSchedule : List (Action (Fin 3) ℕ) := List.flatten
  [[.enqueue 0 7], List.replicate 4 (.access 0 false), [.dequeue 1, .access 1 false, .dequeue 2],
    List.replicate 5 (.access 2 false), List.replicate 3 (.access 1 false)]

/-- The run of that schedule. -/
def lateRun : List (State (Fin 3) ℕ × Action (Fin 3) ℕ) :=
  record (machine (Fin 3) ℕ 1) (machine (Fin 3) ℕ 1).init lateSchedule

theorem retries_lost_late : log (retried 1) lateRun = [0] ∧
    log (iterated 1) (lateRun.drop 7) = [0, 1] ∧ log (claimedByOther 1) (lateRun.drop 7) = [0] ∧
    log (failed 1) (lateRun.drop 7) = [] ∧ (log (iterated 1) (lateRun.drop 7)).length ≤
      (log (claimedByOther 1) (lateRun.drop 7)).length +
        (log (failed 1) (lateRun.drop 7)).length + 1 := by
  have hen : (exec (machine (Fin 3) ℕ 1) (machine (Fin 3) ℕ 1).init lateSchedule).isSome := by
    decide
  obtain ⟨s, -, hrun⟩ := exists_run hen
  have hsmall : (log reserved lateRun).length < 2 ^ 63 := by decide
  have hlt : 6 < lateRun.length := by decide
  have hact : lateRun[6].2 = .access 1 false := by rfl
  have hload : lateRun[6].1.threads 1 = .loadTail := by rfl
  have hnone : (lateRun.drop 7).all fun e => match e.2 with
      | .finish _ => false
      | .enqueue _ _ | .dequeue _ | .access _ _ => true := by decide
  have hfin : ∀ e ∈ lateRun.drop 7, e.2 ≠ .finish 1 := by
    intro e he hend
    have hbusy := List.all_eq_true.mp hnone e he
    rw [hend] at hbusy
    cases hbusy
  refine ⟨by decide, by decide, by decide, by decide,
    (retries_lost le_rfl (by decide) hrun hsmall).2.2 (lateRun.take 6) lateRun[6].1 1 false
      (lateRun.drop 7) ?_ hload hfin⟩
  rw [← hact]
  exact (List.take_append_drop 6 lateRun).symm.trans
    (congrArg _ (List.drop_eq_getElem_cons hlt))

end TaskScheduler.LockFree.Ring
