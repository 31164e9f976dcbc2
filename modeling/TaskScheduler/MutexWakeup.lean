import TaskScheduler.MutexSync

/-!
# The work wake-up of MutexQueueScheduler

While a worker is blocked on `cv_`, every queued task has a `notify_one` still to come or a
worker awake that is on its way to `queue_`.
-/
namespace TaskScheduler.MutexQueue
open Transition

variable {ι α : Type*}

/-- The call has pushed its task and not yet called `notify_one`. -/
def callNotifies : Option (SubmitPc α) → ℕ
  | some .notify => 1
  | _ => 0

def WorkerPc.notifies : WorkerPc α → ℕ
  | .running _ call => callNotifies call
  | _ => 0

/-- The worker is at the head of its loop, on its way to `queue_`. -/
def WorkerPc.awake : WorkerPc α → ℕ
  | .lock | .woken | .check | .take => 1
  | _ => 0

/-- The submits that have pushed and not yet notified. -/
def notifying [Fintype ι] (s : State ι α) : ℕ :=
  ∑ i ∈ Finset.range s.numWorkers, (s.worker i).notifies + ∑ o, callNotifies (s.outside o)

def awake (s : State ι α) : ℕ := ∑ i ∈ Finset.range s.numWorkers, (s.worker i).awake

/-- While a worker is blocked and `run` does not close, the queued tasks are covered. -/
def Covered [Fintype ι] (s : State ι α) : Prop :=
  (∃ i, (s.worker i).isBlocked) → s.shutdown = false → s.queue.length ≤ notifying s + awake s

section Weights
variable [Fintype ι] {s s' : State ι α} {i : ℕ} {pc : WorkerPc α}

theorem weight_setWorker (pc : WorkerPc α) (hi : i < s.numWorkers) :
    notifying (s.setWorker i pc) + awake (s.setWorker i pc) +
        ((s.worker i).notifies + (s.worker i).awake) =
      notifying s + awake s + (pc.notifies + pc.awake) := by
  have hn := Counting.sum_update (Finset.mem_range.mpr hi) s.worker pc WorkerPc.notifies
  have ha := Counting.sum_update (Finset.mem_range.mpr hi) s.worker pc WorkerPc.awake
  simp only [notifying, awake, setWorker_numWorkers, setWorker_worker, setWorker_outside]
  omega

theorem weight_setOutside [DecidableEq ι] (s : State ι α) (o : ι) (call : Option (SubmitPc α)) :
    notifying (s.setOutside o call) + awake (s.setOutside o call) + callNotifies (s.outside o) =
      notifying s + awake s + callNotifies call := by
  have ho := Counting.sum_update (Finset.mem_univ o) s.outside call callNotifies
  simp only [notifying, awake, State.setOutside]
  omega

theorem Covered.mono (h : Covered s) (hb : ∀ i, (s'.worker i).isBlocked → (s.worker i).isBlocked)
    (hd : s'.shutdown = s.shutdown)
    (hw : s'.queue.length + (notifying s + awake s) ≤ s.queue.length + (notifying s' + awake s')) :
    Covered s' := by
  rintro ⟨i, hi⟩ hs
  have hle := h ⟨i, hb i hi⟩ (hd ▸ hs)
  omega

theorem covered_of_nil (h : s.queue = []) : Covered s := by
  intro _ _
  rw [h]
  exact Nat.zero_le _

/-- A step of a launched worker that does not block it. -/
theorem Covered.move (h : Covered s) (hi : i < s.numWorkers) (hb : pc.isBlocked = false)
    (hw : (s.worker i).notifies + (s.worker i).awake ≤ pc.notifies + pc.awake) :
    Covered (s.setWorker i pc) := by
  refine h.mono (fun j hj => ?_) rfl ?_
  · rcases eq_or_ne j i with rfl | hne
    · rw [setWorker_worker, Function.update_self, hb] at hj
      cases hj
    · rwa [setWorker_worker, Function.update_of_ne hne] at hj
  · have hsum := weight_setWorker pc hi
    rw [setWorker_queue]
    omega

end Weights

section Steps
variable [Fintype ι] [DecidableEq ι] {s s' u : State ι α} {a : Action ι α}

omit [DecidableEq ι] in
theorem covered_of_awake (h : ∀ i, (s.worker i).isBlocked = false) : Covered s := by
  rintro ⟨i, hi⟩
  rw [h i] at hi
  cases hi

omit [DecidableEq ι] in
/-- A pushed task is covered by the `notify_one` of its own call, and the worker it wakes takes
that over. -/
theorem Submits.balance (hinv : Inv s) {t : Thread ι} {wake : Option ℕ} {call : SubmitPc α}
    {rest : Option (SubmitPc α)} (hu : Submits s t wake call u rest) :
    u.queue.length + (notifying s + awake s) + callNotifies (some call) ≤
        s.queue.length + (notifying u + awake u) + callNotifies rest ∨
      ∀ i, (u.worker i).isBlocked = false := by
  cases hu with
  | lock hfree => exact .inl le_rfl
  | add => exact .inl le_rfl
  | @push _ task =>
    left
    change (s.queue ++ [task]).length + (notifying s + awake s) + 0 ≤
      s.queue.length + (notifying s + awake s) + 1
    rw [List.length_append, List.length_singleton]
    omega
  | @notify i hb =>
    left
    have hi : i < s.numWorkers := hinv.lt fun he => by rw [he] at hb; cases hb
    have hsum := weight_setWorker .woken hi
    have hzero : (s.worker i).notifies = 0 ∧ (s.worker i).awake = 0 := by
      cases hpc : s.worker i <;> simp_all [WorkerPc.isBlocked, WorkerPc.notifies, WorkerPc.awake]
    rw [hzero.1, hzero.2] at hsum
    simp only [WorkerPc.notifies, WorkerPc.awake, callNotifies, setWorker_queue] at hsum ⊢
    omega
  | unheard hb =>
    refine .inr fun i => ?_
    by_cases hi : i < s.numWorkers
    · exact hb i hi
    · rw [hinv.off i fun hact => hi hact.1]
      rfl

omit [DecidableEq ι] in
theorem Submits.covered (hinv : Inv s) (h : Covered s) {t : Thread ι} {wake : Option ℕ}
    {call : SubmitPc α} {rest : Option (SubmitPc α)} (hu : Submits s t wake call u rest)
    (hb : ∀ i, (s'.worker i).isBlocked → (u.worker i).isBlocked) (hq : s'.queue = u.queue)
    (hd : s'.shutdown = u.shutdown)
    (hw : notifying s' + awake s' + callNotifies (some call) =
      notifying u + awake u + callNotifies rest) : Covered s' := by
  rcases hu.balance hinv with hle | hnone
  · refine h.mono (fun i hi => ?_) (hd.trans hu.frame.1) (by rw [hq]; omega)
    rcases hu.frame.2.2.2.1 i with he | he
    · exact he ▸ hb i hi
    · have hi' := hb i hi
      rw [he] at hi'
      cases hi'
  · refine covered_of_awake fun i => Bool.eq_false_iff.mpr fun hi => ?_
    have hi' := hb i hi
    rw [hnone i] at hi'
    cases hi'

omit [Fintype ι] [DecidableEq ι] in
theorem Submits.same {t : Thread ι} {wake : Option ℕ} {call : SubmitPc α}
    {rest : Option (SubmitPc α)} (hu : Submits s t wake call u rest) :
    u.outside = s.outside ∧ u.numWorkers = s.numWorkers ∧
      ∀ i, (s.worker i).isBlocked = false → u.worker i = s.worker i := by
  cases hu with
  | @notify i hb =>
    refine ⟨rfl, rfl, fun j hj => Function.update_of_ne ?_ _ _⟩
    rintro rfl
    rw [hb] at hj
    cases hj
  | _ => exact ⟨rfl, rfl, fun _ _ => rfl⟩

/-- Every step keeps the queued tasks covered. -/
theorem covered_step (hinv : Inv s) (hsync : Sync s) (h : Covered s) (he : Effect s a s') :
    Covered s' := by
  have hlt : ∀ {i : ℕ} {pc : WorkerPc α}, s.worker i = pc → pc ≠ .off → i < s.numWorkers :=
    fun hpc hne => hinv.lt (hpc ▸ hne)
  have hoff : s.runner = .idle ∨ s.runner = .lockReset ∨ s.runner = .reset →
      ∀ i, (s.worker i).isBlocked = false := by
    intro hr i
    rw [hinv.off i fun hact => by rcases hr with hr | hr | hr <;> simp [Active, hr] at hact]
    rfl
  cases he with
  | @submit o task ho =>
    have hsum := weight_setOutside s o (some (.lock task))
    refine h.mono (fun _ hi => hi) rfl ?_
    simp only [ho, callNotifies, State.setOutside] at hsum ⊢
    omega
  | @outside o wake call rest u ho hu =>
    refine hu.covered hinv h (fun _ hi => hi) rfl rfl ?_
    rw [← ho, ← hu.same.1]
    exact weight_setOutside u o rest
  | spawn hpc => exact h.move (hlt hpc (by simp)) rfl (by rw [hpc]; exact le_rfl)
  | finish hpc => exact h.move (hlt hpc (by simp)) rfl (by rw [hpc]; exact le_rfl)
  | @call i wake x call rest u hpc hu =>
    have hi : i < u.numWorkers := hu.same.2.1 ▸ hlt hpc (by simp)
    have hsum := weight_setWorker (.running x rest) hi
    rw [hu.same.2.2 i (by rw [hpc]; rfl), hpc] at hsum
    refine hu.covered hinv h (fun j hj => ?_) rfl rfl hsum
    rcases eq_or_ne j i with rfl | hne
    · simp [WorkerPc.isBlocked] at hj
    · simpa [Function.update_of_ne hne] using hj
  | @lock i wake hpc hmu =>
    have hne : s.worker i ≠ .off := by rcases hpc with hpc | hpc <;> simp [hpc]
    have h' : Covered { s with mu := some (.worker i) } := h
    refine h'.move (hinv.lt hne) rfl ?_
    rcases hpc with hpc | hpc <;> simp [hpc, WorkerPc.notifies, WorkerPc.awake]
  | found hpc hp => exact h.move (hlt hpc (by simp)) rfl (by rw [hpc]; exact le_rfl)
  | wait hpc hq hs => exact covered_of_nil hq
  | @block i wake hpc =>
    have hknows := hsync.knows i
    rw [hpc] at hknows
    exact covered_of_nil hknows.1
  | @take i wake task rest hpc hq =>
    have hi := hlt hpc (by simp)
    have hsum := weight_setWorker (.running task none) hi
    rw [hpc] at hsum
    refine h.mono (fun j hj => ?_) rfl ?_
    · rcases eq_or_ne j i with rfl | hne
      · simp [WorkerPc.isBlocked] at hj
      · simpa [Function.update_of_ne hne] using hj
    · change rest.length + (notifying s + awake s) ≤ s.queue.length +
        (notifying (s.setWorker i (.running task none)) +
          awake (s.setWorker i (.running task none)))
      simp only [hq, List.length_cons, WorkerPc.notifies, WorkerPc.awake, callNotifies] at hsum ⊢
      omega
  | exit hpc hq => exact covered_of_nil hq
  | @last i wake hpc hp =>
    have h' : Covered { s with pending := s.pending - 1 } := h
    exact h'.move (hlt hpc (by simp)) rfl (by rw [hpc]; exact Nat.zero_le _)
  | @decrement i wake hpc hp =>
    have h' : Covered { s with pending := s.pending - 1 } := h
    exact h'.move (hlt hpc (by simp)) rfl (by rw [hpc]; exact Nat.zero_le _)
  | @notifyDone i wake hpc =>
    have h' : Covered { s with runner := s.runner.wake } := h
    exact h'.move (hlt hpc (by simp)) rfl (by rw [hpc]; exact Nat.zero_le _)
  | run hr => exact covered_of_awake (hoff (.inl hr))
  | reset hr => exact covered_of_awake (hoff (.inr (.inr hr)))
  | @launch i hr hi =>
    have hpc : s.worker i = .off := hinv.off i (by simp [Active, hr])
    have h' : Covered { s with runner := .spawn (i + 1) } := h
    exact h'.move hi rfl (by rw [hpc]; exact Nat.zero_le _)
  | setShutdown hr => exact fun _ hs => by cases hs
  | notifyAll hr =>
    refine covered_of_awake fun i => ?_
    change (s.worker i).wake.isBlocked = false
    cases s.worker i <;> rfl
  | @join i hr hi hw =>
    have h' : Covered { s with runner := .join (i + 1) } := h
    exact h'.move hi rfl (by rw [hw]; exact Nat.zero_le _)
  | @spuriousWorker i hb =>
    have hne : s.worker i ≠ .off := fun he => by rw [he] at hb; cases hb
    refine h.move (hinv.lt hne) rfl ?_
    cases hpc : s.worker i <;> simp_all [WorkerPc.isBlocked, WorkerPc.notifies, WorkerPc.awake]
  | _ => exact h

theorem covered_of_reachable (h : Reachable (machine ι α) s) : Covered s := by
  obtain ⟨tr, htr⟩ := h
  refine (Run.invariant (I := fun s => Inv s ∧ Sync s ∧ Covered s)
    ⟨inv_init, sync_init, covered_of_nil rfl⟩ ?_ htr).2.2
  rintro u a v ⟨hinv, hsync, hc⟩ hs
  exact ⟨inv_step u a v hinv hs, sync_step hinv hsync hs,
    covered_step hinv hsync hc (step_effect hs)⟩

/-- `shutdown_` is set from the end of one `run` to the beginning of the next. -/
def Shut (s : State ι α) : Prop :=
  s.shutdown = true → s.runner = .notifyAll ∨ (∃ k, s.runner = .join k) ∨ s.runner = .idle ∨
    s.runner = .lockReset ∨ s.runner = .reset

omit [Fintype ι] in
theorem shut_step (h : Shut s) (he : Effect s a s') : Shut s' := by
  cases he with
  | outside ho hu =>
    have hsame := hu.frame
    simpa only [Shut, State.setOutside, hsame.1, hsame.2.1] using h
  | call hpc hu =>
    have hsame := hu.frame
    simpa only [Shut, setWorker_shutdown, setWorker_runner, hsame.1, hsame.2.1] using h
  | notifyDone hpc =>
    intro hs
    rcases h hs with hr | ⟨k, hr⟩ | hr | hr | hr <;> simp [hr, RunPc.wake]
  | run hr => exact fun _ => .inr (.inr (.inr (.inl rfl)))
  | lockReset hr hmu => exact fun _ => .inr (.inr (.inr (.inr rfl)))
  | reset hr => exact fun hs => by cases hs
  | launch hr hi => exact fun hs => by simpa [hr] using h hs
  | launched hr hi => exact fun hs => by simpa [hr] using h hs
  | lockWait hr hmu => exact fun hs => by rcases hr with hr | hr <;> simpa [hr] using h hs
  | zero hr hp => exact fun hs => by simpa [hr] using h hs
  | positive hr hp => exact fun hs => by simpa [hr] using h hs
  | blockDone hr => exact fun hs => by simpa [hr] using h hs
  | setShutdown hr => exact fun _ => .inl rfl
  | notifyAll hr => exact fun _ => .inr (.inl ⟨0, rfl⟩)
  | @join i hr hi hw => exact fun _ => .inr (.inl ⟨i + 1, rfl⟩)
  | ret hr hi => exact fun _ => .inr (.inr (.inl rfl))
  | spuriousRunner hr => exact fun hs => by simpa [hr] using h hs
  | _ => exact h

/-- While a worker is blocked on `cv_` and `shutdown_` is false, every queued task has a
`notify_one` to come or a worker on its way; and after `notify_all` no worker is blocked. -/
theorem wakeups_conserved (h : Reachable (machine ι α) s) :
    ((∃ i, (s.worker i).isBlocked) → s.shutdown = false →
        s.queue.length ≤ notifying s + awake s) ∧
      (s.shutdown = true → s.runner ≠ .notifyAll → ∀ i, (s.worker i).isBlocked = false) := by
  refine ⟨covered_of_reachable h, fun hs hr i => ?_⟩
  obtain ⟨tr, htr⟩ := h
  have hshut : Shut s :=
    Run.invariant (I := Shut) (fun h0 => by cases h0)
      (fun _ _ _ hu hv => shut_step hu (step_effect hv)) htr
  have hinv := inv_of_reachable htr.reachable
  rcases hshut hs with hn | hj | hidle
  · exact absurd hn hr
  · exact (sync_of_run htr).awake hj i
  · rw [hinv.off i fun hact => by rcases hidle with hr | hr | hr <;> simp [Active, hr] at hact]
    rfl

end Steps

section Blocked

/-- One worker blocks on `cv_`; a `submit` from outside has pushed and not yet notified. -/
def blockedSchedule : List (Action Unit ℕ) :=
  .run 1 :: List.replicate 3 .runner ++
    [.worker 0 none, .worker 0 none, .worker 0 none, .submit () 0, .outside () none,
      .outside () none, .outside () none]

theorem wakeups_conserved_blocked :
    ∃ s, exec (machine Unit ℕ) (machine Unit ℕ).init blockedSchedule = some s ∧
      s.queue.length = 1 ∧ (∃ i, (s.worker i).isBlocked) ∧ s.shutdown = false ∧
      s.queue.length ≤ notifying s + awake s := by
  have hen : (exec (machine Unit ℕ) (machine Unit ℕ).init blockedSchedule).isSome := rfl
  obtain ⟨s, hs, hrun⟩ := exists_run hen
  have hfin : s.queue.length = 1 ∧ (s.worker 0).isBlocked ∧ s.shutdown = false := by
    cases hs
    exact ⟨rfl, rfl, rfl⟩
  exact ⟨s, hs, hfin.1, ⟨0, hfin.2.1⟩, hfin.2.2,
    (wakeups_conserved hrun.reachable).1 ⟨0, hfin.2.1⟩ hfin.2.2⟩

end Blocked

end TaskScheduler.MutexQueue
