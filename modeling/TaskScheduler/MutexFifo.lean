import TaskScheduler.MutexSync

/-!
# MutexQueueScheduler runs every task once, in order

The tasks that a run pushes, takes and finishes, against `queue_`, `pending_` and the workers.
-/
namespace TaskScheduler.MutexQueue
open Transition

variable {ι α : Type*}

def callPushes : Option (SubmitPc α) → Option α
  | some (.push task) => some task
  | _ => none

/-- The `submit` that a thread is in. -/
def State.call (s : State ι α) : Thread ι → Option (SubmitPc α)
  | .runner => none
  | .worker i =>
    match s.worker i with
    | .running _ call => call
    | _ => none
  | .outside o => s.outside o

/-- The task that the step pushes to `queue_`. -/
def pushed (s : State ι α) : Action ι α → Option α
  | .outside o _ => callPushes (s.call (.outside o))
  | .worker i _ => callPushes (s.call (.worker i))
  | _ => none

/-- The task that the step takes from `queue_`. -/
def taken (s : State ι α) : Action ι α → Option α
  | .worker i _ =>
    match s.worker i with
    | .take => s.queue.head?
    | _ => none
  | _ => none

/-- The task that returns to its worker with the step. -/
def finished (s : State ι α) : Action ι α → Option α
  | .finish i =>
    match s.worker i with
    | .running task none => some task
    | _ => none
  | _ => none

/-- The worker counts a task off with the step. -/
def counted (s : State ι α) : Action ι α → Option Unit
  | .worker i _ =>
    match s.worker i with
    | .decrement => some ()
    | _ => none
  | _ => none

/-- The task that the worker runs. -/
def WorkerPc.own : WorkerPc α → Multiset α
  | .running task _ => {task}
  | _ => 0

/-- The worker has taken a task and not yet counted it off. -/
def WorkerPc.uncounted : WorkerPc α → ℕ
  | .running .. | .decrement => 1
  | _ => 0

def running (s : State ι α) : Multiset α := ∑ i ∈ Finset.range s.numWorkers, (s.worker i).own

def uncounted (s : State ι α) : ℕ := ∑ i ∈ Finset.range s.numWorkers, (s.worker i).uncounted

/-- The record of a run against the state it has reached. -/
structure Ledger (tr : List (State ι α × Action ι α)) (s : State ι α) : Prop where
  order : log taken tr ++ s.queue = log pushed tr
  tasks : (log taken tr : Multiset α) = log finished tr + running s
  count : (log taken tr).length = (log counted tr).length + uncounted s

/-- What a step does to the record. -/
structure Moves (s : State ι α) (a : Action ι α) (s' : State ι α) : Prop where
  order : (taken s a).toList ++ s'.queue = s.queue ++ (pushed s a).toList
  tasks : running s' + ((finished s a).toList : Multiset α) =
    running s + ((taken s a).toList : Multiset α)
  count : uncounted s' + (counted s a).toList.length = uncounted s + (taken s a).toList.length

/-- The step has no part in the record. -/
structure Still (s : State ι α) (a : Action ι α) (s' : State ι α) : Prop where
  pushed : pushed s a = none
  taken : taken s a = none
  finished : finished s a = none
  counted : counted s a = none
  queue : s'.queue = s.queue

variable {s s' u : State ι α} {a : Action ι α} {i : ℕ} {pc : WorkerPc α}

section Weights

theorem WorkerPc.own_wake (w : WorkerPc α) : w.wake.own = w.own := by cases w <;> rfl

theorem WorkerPc.uncounted_wake (w : WorkerPc α) : w.wake.uncounted = w.uncounted := by
  cases w <;> rfl

theorem running_congr (hn : s'.numWorkers = s.numWorkers)
    (hw : ∀ j, (s'.worker j).own = (s.worker j).own) : running s' = running s := by
  simp only [running, hn, hw]

theorem uncounted_congr (hn : s'.numWorkers = s.numWorkers)
    (hw : ∀ j, (s'.worker j).uncounted = (s.worker j).uncounted) : uncounted s' = uncounted s := by
  simp only [uncounted, hn, hw]

theorem running_setWorker (hi : i < s.numWorkers) {out inn : Multiset α}
    (h : pc.own + out = (s.worker i).own + inn) :
    running (s.setWorker i pc) + out = running s + inn :=
  Counting.sum_move (Finset.mem_range.mpr hi) h

theorem uncounted_setWorker (hi : i < s.numWorkers) {out inn : ℕ}
    (h : pc.uncounted + out = (s.worker i).uncounted + inn) :
    uncounted (s.setWorker i pc) + out = uncounted s + inn :=
  Counting.sum_move (Finset.mem_range.mpr hi) h

theorem Still.moves (h : Still s a s') (ho : running s' = running s)
    (hu : uncounted s' = uncounted s) : Moves s a s' where
  order := by rw [h.taken, h.pushed, h.queue]; simp
  tasks := by rw [h.finished, h.taken, ho]
  count := by rw [h.counted, h.taken, hu]; rfl

/-- A worker that neither takes a task nor lets go of one. -/
theorem Still.moves_worker (h : Still s a (u.setWorker i pc))
    (hn : u.numWorkers = s.numWorkers) (hw : u.worker = s.worker)
    (ho : pc.own = (s.worker i).own) (hu : pc.uncounted = (s.worker i).uncounted) :
    Moves s a (u.setWorker i pc) := by
  refine h.moves (running_congr hn fun j => ?_) (uncounted_congr hn fun j => ?_) <;>
  · rcases eq_or_ne j i with rfl | hne
    · simp [ho, hu]
    · simp [Function.update_of_ne hne, hw]

/-- A step of a `submit` pushes the task it has at hand and leaves the workers' tasks alone. -/
theorem Submits.moves {t : Thread ι} {wake : Option ℕ} {call : SubmitPc α}
    {rest : Option (SubmitPc α)} (hu : Submits s t wake call u rest) :
    u.queue = s.queue ++ (callPushes (some call)).toList ∧ u.numWorkers = s.numWorkers ∧
      ∀ j, (u.worker j).own = (s.worker j).own ∧
        (u.worker j).uncounted = (s.worker j).uncounted := by
  cases hu with
  | @notify i hb =>
    refine ⟨by simp [callPushes], rfl, fun j => ?_⟩
    rcases eq_or_ne j i with rfl | hne
    · cases hpc : s.worker j <;>
        simp_all [WorkerPc.isBlocked, WorkerPc.own, WorkerPc.uncounted]
    · simp [Function.update_of_ne hne]
  | push => exact ⟨rfl, rfl, fun _ => ⟨rfl, rfl⟩⟩
  | _ => exact ⟨by simp [callPushes], rfl, fun _ => ⟨rfl, rfl⟩⟩

end Weights

section Steps
variable [Fintype ι] [DecidableEq ι]

theorem moves_step (hinv : Inv s) (he : Effect s a s') : Moves s a s' := by
  have hlt : ∀ {i : ℕ} {pc : WorkerPc α}, s.worker i = pc → pc ≠ .off → i < s.numWorkers :=
    fun hpc hne => hinv.lt (hpc ▸ hne)
  -- A worker's step that neither takes, counts nor pushes.
  have hstill : ∀ {i : ℕ} {wake : Option ℕ} {s' : State ι α}, s'.queue = s.queue →
      (s.worker i = .take → s.queue = []) → s.worker i ≠ .decrement →
      s.call (.worker i) = none → Still s (.worker i wake) s' := by
    intro i wake s' hq htake hdec hcall
    refine ⟨by simp only [pushed, hcall, callPushes], ?_, rfl, ?_, hq⟩
    · cases hpc : s.worker i <;> simp [taken, hpc]
      exact htake hpc
    · cases hpc : s.worker i <;> simp [counted, hpc]
      exact hdec hpc
  have hoff : ∀ {i : ℕ} {wake : Option ℕ} {pc : WorkerPc α}, s.worker i = .decrement →
      pc.own = 0 → pc.uncounted = 0 →
      Moves s (.worker i wake) ({ s with pending := s.pending - 1 }.setWorker i pc) := by
    intro i wake pc hpc ho hu
    refine ⟨?_, ?_, ?_⟩
    · simp [taken, pushed, State.call, hpc, callPushes]
    · exact running_setWorker (s := { s with pending := s.pending - 1 }) (hlt hpc nofun)
        (by rw [ho, hpc]; simp [WorkerPc.own, finished, taken, hpc])
    · exact uncounted_setWorker (s := { s with pending := s.pending - 1 }) (hlt hpc nofun)
        (by rw [hu, hpc]; simp [WorkerPc.uncounted, counted, taken, hpc])
  cases he with
  | submit ho => exact Still.moves ⟨rfl, rfl, rfl, rfl, rfl⟩ rfl rfl
  | @outside o wake call rest u ho hu =>
    obtain ⟨hq, hn, hw⟩ := hu.moves
    have hpush : pushed s (.outside o wake) = callPushes (some call) := by
      simp only [pushed, State.call, ho]
    refine ⟨?_, ?_, ?_⟩
    · rw [hpush]
      exact hq
    · exact congrArg (· + 0) (running_congr hn fun j => (hw j).1)
    · exact congrArg (· + 0) (uncounted_congr hn fun j => (hw j).2)
  | @call i wake x call rest u hpc hu =>
    obtain ⟨hq, hn, hw⟩ := hu.moves
    have hpush : pushed s (.worker i wake) = callPushes (some call) := by
      simp only [pushed, State.call, hpc]
    have htake : taken s (.worker i wake) = none := by simp only [taken, hpc]
    have hcount : counted s (.worker i wake) = none := by simp only [counted, hpc]
    have hi : i < u.numWorkers := hn ▸ hlt hpc nofun
    have ho := hw i
    rw [hpc] at ho
    refine ⟨?_, ?_, ?_⟩
    · rw [hpush, htake]
      exact hq
    · rw [htake, ← running_congr hn fun j => (hw j).1]
      exact running_setWorker hi (congrArg (· + 0) ho.1.symm)
    · rw [htake, hcount, ← uncounted_congr hn fun j => (hw j).2]
      exact uncounted_setWorker hi (congrArg (· + 0) ho.2.symm)
  | @spawn i x task hpc =>
    exact Still.moves_worker (u := s) ⟨rfl, rfl, rfl, rfl, rfl⟩ rfl rfl (by rw [hpc]; rfl)
      (by rw [hpc]; rfl)
  | @finish i x hpc =>
    have hfin : finished s (.finish i) = some x := by simp only [finished, hpc]
    refine ⟨by simp [taken, pushed], ?_, ?_⟩
    · rw [hfin]
      exact running_setWorker (hlt hpc nofun) (by simp [hpc, WorkerPc.own, taken])
    · exact uncounted_setWorker (hlt hpc nofun) (by simp [hpc, WorkerPc.uncounted, taken, counted])
  | @lock i wake hpc hmu =>
    refine Still.moves_worker (u := { s with mu := some (.worker i) }) (hstill rfl ?_ ?_ ?_) rfl
      rfl ?_ ?_ <;> rcases hpc with hpc | hpc <;>
      simp [hpc, State.call, WorkerPc.own, WorkerPc.uncounted]
  | found hpc hp =>
    refine Still.moves_worker (u := s) (hstill rfl ?_ ?_ ?_) rfl rfl ?_ ?_ <;>
      simp [hpc, State.call, WorkerPc.own, WorkerPc.uncounted]
  | wait hpc hq hs =>
    refine Still.moves_worker (u := s) (hstill rfl ?_ ?_ ?_) rfl rfl ?_ ?_ <;>
      simp [hpc, State.call, WorkerPc.own, WorkerPc.uncounted]
  | block hpc =>
    refine Still.moves_worker (u := { s with mu := none }) (hstill rfl ?_ ?_ ?_) rfl rfl ?_ ?_ <;>
      simp [hpc, State.call, WorkerPc.own, WorkerPc.uncounted]
  | @take i wake task rest hpc hq =>
    have htake : taken s (.worker i wake) = some task := by simp [taken, hpc, hq]
    refine ⟨?_, ?_, ?_⟩
    · simp [htake, hq, pushed, State.call, hpc, callPushes]
    · rw [htake]
      exact running_setWorker (s := { s with queue := rest, mu := none }) (hlt hpc nofun)
        (by simp [hpc, WorkerPc.own, finished])
    · rw [htake]
      exact uncounted_setWorker (s := { s with queue := rest, mu := none }) (hlt hpc nofun)
        (by simp [hpc, WorkerPc.uncounted, counted])
  | exit hpc hq =>
    refine Still.moves_worker (u := { s with mu := none }) (hstill rfl ?_ ?_ ?_) rfl rfl ?_ ?_ <;>
      simp [hpc, hq, State.call, WorkerPc.own, WorkerPc.uncounted]
  | last hpc hp => exact hoff hpc rfl rfl
  | decrement hpc hp => exact hoff hpc rfl rfl
  | notifyDone hpc =>
    refine Still.moves_worker (u := { s with runner := s.runner.wake }) (hstill rfl ?_ ?_ ?_) rfl
      rfl ?_ ?_ <;> simp [hpc, State.call, WorkerPc.own, WorkerPc.uncounted]
  | run hr =>
    have hnone : ∀ i, s.worker i = .off := fun i => hinv.off i (by simp [Active, hr])
    refine Still.moves ⟨rfl, rfl, rfl, rfl, rfl⟩ ?_ ?_ <;>
      simp [running, uncounted, hnone, WorkerPc.own, WorkerPc.uncounted]
  | @launch i hr hi =>
    have hpc : s.worker i = .off := hinv.off i (by simp [Active, hr])
    exact Still.moves_worker (u := { s with runner := .spawn (i + 1) }) ⟨rfl, rfl, rfl, rfl, rfl⟩
      rfl rfl (by rw [hpc]; rfl) (by rw [hpc]; rfl)
  | notifyAll hr =>
    exact Still.moves ⟨rfl, rfl, rfl, rfl, rfl⟩
      (running_congr rfl fun j => (s.worker j).own_wake)
      (uncounted_congr rfl fun j => (s.worker j).uncounted_wake)
  | @join i hr hi hw =>
    exact Still.moves_worker (u := { s with runner := .join (i + 1) }) ⟨rfl, rfl, rfl, rfl, rfl⟩
      rfl rfl (by rw [hw]; rfl) (by rw [hw]; rfl)
  | @spuriousWorker i hb =>
    refine Still.moves_worker (u := s) ⟨rfl, rfl, rfl, rfl, rfl⟩ rfl rfl ?_ ?_ <;>
      cases hpc : s.worker i <;> simp_all [WorkerPc.isBlocked, WorkerPc.own, WorkerPc.uncounted]
  | _ => exact Still.moves ⟨rfl, rfl, rfl, rfl, rfl⟩ rfl rfl

variable {tr : List (State ι α × Action ι α)}

omit [Fintype ι] [DecidableEq ι] in
theorem Ledger.step (h : Ledger tr s) (hm : Moves s a s') : Ledger (tr ++ [(s, a)]) s' where
  order := by
    rw [log_snoc, log_snoc, List.append_assoc, hm.order, ← List.append_assoc, h.order]
  tasks := by
    rw [log_snoc, log_snoc, ← Multiset.coe_add, ← Multiset.coe_add, h.tasks, add_assoc, add_assoc,
      ← hm.tasks, add_comm (running s')]
  count := by
    have hc := h.count
    have hm := hm.count
    rw [log_snoc, log_snoc, List.length_append, List.length_append]
    omega

theorem ledger_of_run (h : Run (machine ι α) tr s) : Ledger tr s := by
  refine (Run.history (I := fun tr s => Inv s ∧ Ledger tr s) ⟨inv_init, rfl, rfl, rfl⟩ ?_ h).2
  rintro tr u a v ⟨hinv, hl⟩ hs
  exact ⟨inv_step u a v hinv hs, hl.step (moves_step hinv (step_effect hs))⟩

end Steps

section Results
variable [Fintype ι] [DecidableEq ι] {tr : List (State ι α × Action ι α)}

omit [Fintype ι] [DecidableEq ι] in
theorem callOwed_of_outside {call : Option (SubmitPc α)} (h : callHolds call = false) :
    callOwed call = 0 := by
  rcases call with _ | call
  · rfl
  · cases call <;> simp_all [callHolds, callOwed, SubmitPc.owed]

omit [DecidableEq ι] in
/-- With `mu_` not inside a `submit`, `pending_` counts the queued tasks and those taken and not
yet counted off. -/
theorem Inv.pending_eq (h : Inv s) (hg : Exclusion.Guards s.mu s.holds)
    (hmu : ∀ t, s.mu = some t → callHolds (s.call t) = false) :
    s.pending = s.queue.length + uncounted s := by
  have hcall : ∀ t, (callHolds (s.call t) → s.holds t) → callOwed (s.call t) = 0 := by
    intro t ht
    refine callOwed_of_outside (Bool.eq_false_iff.mpr fun hc => ?_)
    rw [hmu t (hg.holder (ht hc))] at hc
    cases hc
  have hw : ∀ i, (s.worker i).owed = (s.worker i).uncounted := by
    intro i
    have hzero := hcall (.worker i)
    cases hpc : s.worker i <;>
      simp_all [State.call, State.holds, WorkerPc.holds, WorkerPc.owed, WorkerPc.uncounted]
  have ho : ∀ o, callOwed (s.outside o) = 0 := fun o => hcall (.outside o) id
  rw [h.count, accepted, uncounted]
  simp only [hw, ho, Finset.sum_const_zero, Nat.cast_sum, add_zero]

omit [Fintype ι] [DecidableEq ι] in
theorem running_eq_zero (h : ∀ i, (s.worker i).own = 0) : running s = 0 := by
  simp [running, h]

omit [Fintype ι] [DecidableEq ι] in
/-- The tasks pushed are those finished, those at the workers and those queued. -/
theorem Ledger.pushed_eq (h : Ledger tr s) :
    (log pushed tr : Multiset α) = log finished tr + running s + s.queue := by
  rw [← h.order, ← Multiset.coe_add, h.tasks]

omit [Fintype ι] in
theorem runner_of_shutdown (he : Effect s a s') (h : s.shutdown = false)
    (h' : s'.shutdown = true) : s.runner = .setShutdown := by
  have hsame : s'.shutdown = s.shutdown → s.runner = .setShutdown := by
    intro hs
    rw [hs, h] at h'
    cases h'
  cases he with
  | outside ho hu => exact hsame hu.frame.1
  | call hpc hu => exact hsame hu.frame.1
  | reset hr => cases h'
  | setShutdown hr => exact hr
  | _ => exact hsame rfl

omit [Fintype ι] in
theorem take_of_exited {wake : Option ℕ} (he : Effect s (.worker i wake) s')
    (hex : (s'.worker i).isExited) : s.worker i = .take ∧ s.queue = [] := by
  cases he with
  | exit hpc hq => exact ⟨hpc, hq⟩
  | _ => simp [WorkerPc.isExited] at hex

omit [Fintype ι] in
theorem join_of_idle (he : Effect s .runner s') (hidle : s'.runner = .idle) :
    ∃ k, s.runner = .join k ∧ s.numWorkers ≤ k := by
  cases he with
  | ret hr hi => exact ⟨_, hr, not_lt.mp hi⟩
  | _ => cases hidle

/-- Tasks are taken in the order in which they were pushed, none skipped and none twice;
`pending_` is the queued tasks and those taken and not yet counted off; `run` sets `shutdown_`
when every task pushed has run to completion; a worker returns when `shutdown_` is set and
`queue_` is empty; and when `run` returns, every task pushed has run or is still queued. -/
theorem runs_in_order (h : Run (machine ι α) tr s) :
    log taken tr ++ s.queue = log pushed tr ∧
    (log finished tr : Multiset α) ≤ log taken tr ∧
    ((∀ t, s.mu = some t → callHolds (s.call t) = false) →
      s.pending = s.queue.length + ((log taken tr).length - (log counted tr).length)) ∧
    (∀ a v, step s a = some v → s.shutdown = false → v.shutdown = true →
      (log finished tr : Multiset α) = log pushed tr) ∧
    (∀ i wake v, step s (.worker i wake) = some v → (v.worker i).isExited →
      s.shutdown = true ∧ s.queue = []) ∧
    ∀ v, step s .runner = some v → v.runner = .idle →
      (log pushed tr : Multiset α) = log finished tr + s.queue := by
  have hl := ledger_of_run h
  have hinv := inv_of_reachable h.reachable
  have hsync := sync_of_run h
  refine ⟨hl.order, ?_, fun hmu => ?_, fun a v hs hoff hon => ?_, fun i wake v hs hex => ?_,
    fun v hs hidle => ?_⟩
  · rw [hl.tasks]
    exact Multiset.le_add_right _ _
  · have hc := hl.count
    rw [hinv.pending_eq hsync.guard hmu]
    omega
  · obtain ⟨hq, hw⟩ := hinv.settled
      (hsync.zero (runner_of_shutdown (step_effect hs) hoff hon))
    have hnone : running s = 0 := running_eq_zero fun i => by
      have hi := hw i
      cases hpc : s.worker i with
      | running task call =>
        have hcall := callOwed_nonneg call
        rw [hpc, WorkerPc.owed] at hi
        omega
      | _ => rfl
    rw [hl.pushed_eq, hnone, hq]
    simp
  · obtain ⟨hpc, hq⟩ := take_of_exited (step_effect hs) hex
    have hknows := hsync.knows i
    rw [hpc] at hknows
    exact ⟨hknows.resolve_left fun hne => hne hq, hq⟩
  · obtain ⟨k, hr, hk⟩ := join_of_idle (step_effect hs) hidle
    have hnone : running s = 0 := running_eq_zero fun i => by
      rw [hinv.off i fun hact => ?_]
      · rfl
      · have hlt := hact.2
        simp only [hr] at hlt
        exact absurd (hlt.trans_lt hact.1) (not_lt.mpr hk)
    rw [hl.pushed_eq, hnone, add_zero]

end Results

section Order

/-- Two tasks are pushed from outside and the one worker of a `run` takes the first. -/
def orderSchedule : List (Action Unit ℕ) :=
  [.submit () 7, .outside () none, .outside () none, .outside () none, .outside () none,
    .submit () 8, .outside () none, .outside () none, .outside () none, .outside () none,
    .run 1, .runner, .runner, .runner, .worker 0 none, .worker 0 none, .worker 0 none]

theorem runs_in_order_first :
    ∃ s, exec (machine Unit ℕ) (machine Unit ℕ).init orderSchedule = some s ∧
      log taken (record (machine Unit ℕ) (machine Unit ℕ).init orderSchedule) = [7] ∧
      s.queue = [8] ∧
      log taken (record (machine Unit ℕ) (machine Unit ℕ).init orderSchedule) ++ s.queue =
        log pushed (record (machine Unit ℕ) (machine Unit ℕ).init orderSchedule) := by
  have hen : (exec (machine Unit ℕ) (machine Unit ℕ).init orderSchedule).isSome := rfl
  obtain ⟨s, hs, hrun⟩ := exists_run hen
  have hfin : s.queue = [8] := by
    cases hs
    rfl
  exact ⟨s, hs, rfl, hfin, (runs_in_order hrun).1⟩

end Order

end TaskScheduler.MutexQueue
