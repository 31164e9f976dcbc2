import TaskScheduler.Executor
import TaskScheduler.MutexOrder

/-!
# MutexQueueScheduler is an executor

One thread submits tasks from outside, then it calls `run` once; every task may submit more.
-/
namespace TaskScheduler.MutexQueue
open Transition TaskPool Executor

variable {α : Type*}

/-- The step is the return of `run`. -/
def State.returns (s : State Unit α) : Bool :=
  match s.runner with
  | .join i => s.numWorkers ≤ i
  | _ => false

/-- The caller of `run`: it submits before that, and calls it with `n` workers when its last
`submit` has returned. -/
def host (n : ℕ) (phase : Phase) (s : State Unit α) :
    Action Unit α → Option (Action Unit α × Phase)
  | .submit o task => if phase = .before then some (.submit o task, phase) else none
  | .outside o wake => some (.outside o wake, phase)
  | .spawn i task => some (.spawn i task, phase)
  | .finish i => some (.finish i, phase)
  | .worker i wake => some (.worker i wake, phase)
  | .run m =>
    if phase = .before ∧ m = n ∧ s.outside () = none then some (.run m, .running) else none
  | .runner => some (.runner, if s.returns then .after else phase)
  | .spuriousWorker i => some (.spuriousWorker i, phase)
  | .spuriousRunner => some (.spuriousRunner, phase)

/-- The task that the worker runs. -/
def WorkerPc.task : WorkerPc α → Option α
  | .running x _ => some x
  | _ => none

def WorkerPc.call : WorkerPc α → Option (SubmitPc α)
  | .running _ call => call
  | _ => none

/-- The scheduler as its caller and its tasks see it. A call of `submit` or `run` begins where its
arguments are known, and a task begins where a worker takes it from `queue_`. -/
def executor (n : ℕ) (α : Type*) : View (State Unit α × Phase) (Action Unit α) ℕ α where
  machine := (machine Unit α).drive .before (host n)
  event := fun (s, _) => fun
    | .submit _ task => some (.submit task)
    | .spawn i task => some (.spawn i task)
    | .finish i => some (.finish i)
    | .run _ => some .run
    | .worker i wake => (taken s (.worker i wake)).map (.start i)
    | .runner => if s.returns then some .ret else none
    | .outside _ _ | .spuriousWorker _ | .spuriousRunner => none
  current := fun (s, _) i => (s.worker i).task
  phase := fun (_, phase) => phase
  free := fun (s, _) => fun
    | none => (s.outside ()).isNone
    | some i => (s.worker i).call.isNone

/-- What holds under the caller of `run`: nothing is left when `run` has seen `pending_` at
zero. -/
structure Hosted (n : ℕ) (s : State Unit α) (ph : Phase) : Prop where
  crew : s.numWorkers ≤ n
  phase : ph = .running ↔ s.runner ≠ .idle
  outside : ph ≠ .before → s.outside () = none
  done : ph ≠ .before → s.runner.closed = true →
    s.queue = [] ∧ ∀ i, (s.worker i).task = none

section Steps
variable {n : ℕ} {s u : State Unit α} {ph ph' : Phase} {k : Action Unit α} {i : ℕ}

theorem host_step {s u : State Unit α × Phase}
    (h : (executor n α).machine.step s k = some u) :
    host n s.2 s.1 k = some (k, u.2) ∧ Effect s.1 k u.1 := by
  obtain ⟨a, ha, hs⟩ := drive_step h
  have hsame : a = k := by
    cases k <;> simp only [host] at ha <;> (try split_ifs at ha) <;>
      exact (Prod.mk.inj (Option.some.inj ha)).1.symm
  subst hsame
  exact ⟨ha, step_effect hs⟩

theorem WorkerPc.task_wake (w : WorkerPc α) : w.wake.task = w.task := by cases w <;> rfl

theorem WorkerPc.call_wake (w : WorkerPc α) : w.wake.call = w.call := by cases w <;> rfl

/-- A `submit` leaves the tasks that run, and their calls, alone. -/
theorem Submits.tasks {t : Thread Unit} {wake : Option ℕ} {call : SubmitPc α}
    {rest : Option (SubmitPc α)} (h : Submits s t wake call u rest) (i : ℕ) :
    (u.worker i).task = (s.worker i).task ∧ (u.worker i).call = (s.worker i).call := by
  cases h with
  | @notify j hb =>
    rcases eq_or_ne i j with rfl | hne
    · cases hw : s.worker i <;> simp_all [WorkerPc.isBlocked, WorkerPc.task, WorkerPc.call]
    · simp [Function.update_of_ne hne]
  | _ => exact ⟨rfl, rfl⟩

theorem Submits.fixed {t : Thread Unit} {wake : Option ℕ} {call : SubmitPc α}
    {rest : Option (SubmitPc α)} (h : Submits s t wake call u rest) :
    u.numWorkers = s.numWorkers ∧ u.runner = s.runner ∧ u.outside = s.outside := by
  cases h <;> exact ⟨rfl, rfl, rfl⟩

/-- Only a worker that takes a task, or whose task returns, changes what it runs. -/
theorem Effect.tasks (hi : Inv s) (he : Effect s k u) :
    (∃ i, k = .finish i ∧ (s.worker i).task ≠ none ∧
      (fun j => (u.worker j).task) = Function.update (fun j => (s.worker j).task) i none) ∨
    (∃ i wake x, k = .worker i wake ∧ taken s k = some x ∧ s.worker i = .take ∧
      (fun j => (u.worker j).task) = Function.update (fun j => (s.worker j).task) i (some x)) ∨
    (∀ i, k ≠ .finish i) ∧ taken s k = none ∧ ∀ j, (u.worker j).task = (s.worker j).task := by
  have hsame : ∀ {i : ℕ} {pc : WorkerPc α} {v : State Unit α}, v.worker = s.worker →
      pc.task = (s.worker i).task → ∀ j, ((v.setWorker i pc).worker j).task = (s.worker j).task := by
    intro i pc v hv hpc j
    rcases eq_or_ne j i with rfl | hne
    · rwa [setWorker_worker, Function.update_self]
    · rw [setWorker_worker, Function.update_of_ne hne, hv]
  have hset : ∀ {i : ℕ} {pc : WorkerPc α} {v : State Unit α}, v.worker = s.worker →
      (fun j => ((v.setWorker i pc).worker j).task) =
        Function.update (fun j => (s.worker j).task) i pc.task := by
    intro i pc v hv
    funext j
    rcases eq_or_ne j i with rfl | hne
    · simp
    · simp [Function.update_of_ne hne, hv]
  cases he with
  | submit ho => exact .inr (.inr ⟨by simp, rfl, fun _ => rfl⟩)
  | outside ho hu => exact .inr (.inr ⟨by simp, rfl, fun j => (hu.tasks j).1⟩)
  | spawn hw => exact .inr (.inr ⟨by simp, rfl, hsame rfl (by simp [hw, WorkerPc.task])⟩)
  | finish hw => exact .inl ⟨_, rfl, by simp [hw, WorkerPc.task], hset rfl⟩
  | @call i wake x call rest v hw hu =>
    refine .inr (.inr ⟨by simp, by simp [taken, hw], fun j => ?_⟩)
    rcases eq_or_ne j i with rfl | hne
    · simp [hw, WorkerPc.task]
    · simpa [Function.update_of_ne hne] using (hu.tasks j).1
  | lock hw hmu =>
    exact .inr (.inr ⟨by simp, by rcases hw with hw | hw <;> simp [taken, hw],
      hsame rfl (by rcases hw with hw | hw <;> simp [hw, WorkerPc.task])⟩)
  | found hw hp =>
    exact .inr (.inr ⟨by simp, by simp [taken, hw], hsame rfl (by simp [hw, WorkerPc.task])⟩)
  | wait hw hq hd =>
    exact .inr (.inr ⟨by simp, by simp [taken, hw], hsame rfl (by simp [hw, WorkerPc.task])⟩)
  | block hw =>
    exact .inr (.inr ⟨by simp, by simp [taken, hw], hsame rfl (by simp [hw, WorkerPc.task])⟩)
  | @take i wake x rest hw hq =>
    exact .inr (.inl ⟨i, wake, x, rfl, by simp [taken, hw, hq], hw, hset rfl⟩)
  | exit hw hq =>
    exact .inr (.inr ⟨by simp, by simp [taken, hw, hq], hsame rfl (by simp [hw, WorkerPc.task])⟩)
  | last hw hp =>
    exact .inr (.inr ⟨by simp, by simp [taken, hw], hsame rfl (by simp [hw, WorkerPc.task])⟩)
  | decrement hw hp =>
    exact .inr (.inr ⟨by simp, by simp [taken, hw], hsame rfl (by simp [hw, WorkerPc.task])⟩)
  | notifyDone hw =>
    exact .inr (.inr ⟨by simp, by simp [taken, hw], hsame rfl (by simp [hw, WorkerPc.task])⟩)
  | @launch i hr hlt =>
    have hoff : s.worker i = .off := hi.off i (by simp [Active, hr])
    exact .inr (.inr ⟨by simp, rfl, hsame (v := s) rfl (by simp [hoff, WorkerPc.task])⟩)
  | notifyAll hr => exact .inr (.inr ⟨by simp, rfl, fun j => (s.worker j).task_wake⟩)
  | join hr hlt hw =>
    exact .inr (.inr ⟨by simp, rfl, hsame (v := s) rfl (by simp [hw, WorkerPc.task])⟩)
  | spuriousWorker hb =>
    refine .inr (.inr ⟨by simp, rfl, hsame (v := s) rfl ?_⟩)
    cases hw : s.worker _ <;> simp_all [WorkerPc.isBlocked, WorkerPc.task]
  | _ => exact .inr (.inr ⟨by simp, rfl, fun _ => rfl⟩)

/-- A worker that is not `off` exists only while `run` is running. -/
theorem Hosted.on (h : Hosted n s ph) (hi : Inv s) (hw : s.worker i ≠ .off) :
    ph = .running ∧ i < n := by
  refine ⟨h.phase.mpr fun hidle => hw (hi.off i fun hact => ?_), (hi.lt hw).trans_le h.crew⟩
  simp [Active, hidle] at hact

theorem hosted_init : Hosted n (machine Unit α).init .before where
  crew := Nat.zero_le n
  phase := by simp [machine]
  outside h := absurd rfl h
  done h := absurd rfl h

/-- A task keeps `run` from returning. -/
theorem Hosted.open (h : Hosted n s ph) (hi : Inv s) (i : ℕ)
    (hw : (s.worker i).task ≠ none ∨ s.worker i ≠ .off ∧ s.queue ≠ []) :
    s.runner.closed = false := by
  have hon : s.worker i ≠ .off := by
    rcases hw with hw | hw
    · intro hoff
      simp [hoff, WorkerPc.task] at hw
    · exact hw.1
  by_contra hclosed
  obtain ⟨hq, hidle⟩ := h.done (by simp [(h.on hi hon).1]) (by simpa using hclosed)
  exact hw.elim (fun hw => hw (hidle i)) fun hw => hw.2 hq

/-- A step that leaves `queue_`, the running tasks and the outside thread alone. -/
theorem Hosted.still (h : Hosted n s ph) (hn : u.numWorkers = s.numWorkers)
    (hq : u.queue = s.queue) (ho : u.outside = s.outside)
    (hw : ∀ i, (u.worker i).task = (s.worker i).task) (hr : u.runner = .idle ↔ s.runner = .idle)
    (hclosed : u.runner.closed = true → s.runner.closed = true) : Hosted n u ph where
  crew := hn ▸ h.crew
  phase := h.phase.trans (not_congr hr.symm)
  outside hp := ho ▸ h.outside hp
  done hp hc := by
    rw [hq]
    exact ⟨(h.done hp (hclosed hc)).1, fun i => (hw i).trans ((h.done hp (hclosed hc)).2 i)⟩

/-- A step of a task, or of a worker that takes one. -/
theorem Hosted.busy (h : Hosted n s ph) (hi : Inv s) (i : ℕ)
    (hw : (s.worker i).task ≠ none ∨ s.worker i ≠ .off ∧ s.queue ≠ [])
    (hn : u.numWorkers = s.numWorkers) (hr : u.runner = s.runner) (ho : u.outside = s.outside) :
    Hosted n u ph where
  crew := hn ▸ h.crew
  phase := hr ▸ h.phase
  outside hp := ho ▸ h.outside hp
  done hp hc := by
    rw [hr, h.open hi i hw] at hc
    cases hc

/-- A step of the outside thread before `run`. -/
theorem Hosted.early (h : Hosted n s .before) (hn : u.numWorkers = s.numWorkers)
    (hr : u.runner = s.runner) : Hosted n u .before where
  crew := hn ▸ h.crew
  phase := hr ▸ h.phase
  outside hp := absurd rfl hp
  done hp := absurd rfl hp

/-- A step of `run` before it has seen `pending_` at zero. -/
theorem Hosted.open_runner (h : Hosted n s ph) (hn : u.numWorkers = s.numWorkers)
    (ho : u.outside = s.outside) (hs : s.runner ≠ .idle) (hu : u.runner.closed = false) :
    Hosted n u ph where
  crew := hn ▸ h.crew
  phase := h.phase.trans (iff_of_true hs fun hidle => by rw [hidle] at hu; cases hu)
  outside hp := ho ▸ h.outside hp
  done hp hc := by
    rw [hu] at hc
    cases hc

theorem hosted_runner (hi : Inv s) (hsync : Sync s) (h : Hosted n s ph)
    (he : Effect s .runner u) : Hosted n u (if s.returns then .after else ph) := by
  have hgo : s.returns = false → Hosted n u ph → Hosted n u (if s.returns then .after else ph) :=
    fun hr hu => by rwa [hr]
  cases he with
  | lockReset hr hmu => exact hgo (by simp [State.returns, hr]) (h.open_runner rfl rfl (by simp [hr]) rfl)
  | reset hr => exact hgo (by simp [State.returns, hr]) (h.open_runner rfl rfl (by simp [hr]) rfl)
  | launch hr hlt => exact hgo (by simp [State.returns, hr]) (h.open_runner rfl rfl (by simp [hr]) rfl)
  | launched hr hlt => exact hgo (by simp [State.returns, hr]) (h.open_runner rfl rfl (by simp [hr]) rfl)
  | lockWait hr hmu =>
    exact hgo (by rcases hr with hr | hr <;> simp [State.returns, hr])
      (h.open_runner rfl rfl (by rcases hr with hr | hr <;> simp [hr]) rfl)
  | zero hr hp => exact hgo (by simp [State.returns, hr]) (h.open_runner rfl rfl (by simp [hr]) rfl)
  | positive hr hp => exact hgo (by simp [State.returns, hr]) (h.open_runner rfl rfl (by simp [hr]) rfl)
  | blockDone hr => exact hgo (by simp [State.returns, hr]) (h.open_runner rfl rfl (by simp [hr]) rfl)
  | setShutdown hr =>
    obtain ⟨hq, hw⟩ := hi.settled (hsync.zero hr)
    refine hgo (by simp [State.returns, hr])
      ⟨h.crew, h.phase.trans (by simp [hr]), h.outside, fun _ _ => ⟨hq, fun i => ?_⟩⟩
    have hi0 := hw i
    cases hpc : s.worker i with
    | running task call =>
      have hcall := callOwed_nonneg call
      rw [hpc, WorkerPc.owed] at hi0
      omega
    | _ => rfl
  | notifyAll hr =>
    exact hgo (by simp [State.returns, hr]) (h.still rfl rfl rfl (fun i => (s.worker i).task_wake)
      (by simp [hr]) fun _ => by simp [hr, RunPc.closed])
  | @join j hr hlt hw =>
    refine hgo (by simp [State.returns, hr, hlt]) (h.still rfl rfl rfl (fun i => ?_) (by simp [hr])
      fun _ => by simp [hr, RunPc.closed])
    rcases eq_or_ne i j with rfl | hne
    · simp [hw, WorkerPc.task]
    · simp [Function.update_of_ne hne]
  | ret hr hlt =>
    have hret : s.returns = true := by simpa [State.returns, hr] using hlt
    have hph : ph = .running := h.phase.mpr (by simp [hr])
    rw [hret]
    exact ⟨h.crew, by simp, fun _ => h.outside (by simp [hph]),
      fun _ _ => h.done (by simp [hph]) (by simp [hr, RunPc.closed])⟩

theorem hosted_step (hi : Inv s) (hsync : Sync s) (h : Hosted n s ph)
    (ha : host n ph s k = some (k, ph')) (he : Effect s k u) : Hosted n u ph' := by
  have hph : ∀ {c : Phase}, some (k, c) = some (k, ph') → c = ph' := fun h =>
    (Prod.mk.inj (Option.some.inj h)).2
  have hmid : ∀ {i : ℕ} {pc : WorkerPc α} {v : State Unit α}, v.worker = s.worker →
      pc.task = (s.worker i).task → ∀ j, ((v.setWorker i pc).worker j).task = (s.worker j).task := by
    intro i pc v hv hpc j
    rcases eq_or_ne j i with rfl | hne
    · rwa [setWorker_worker, Function.update_self]
    · rw [setWorker_worker, Function.update_of_ne hne, hv]
  cases k with
  | submit o task =>
    simp only [host] at ha
    split_ifs at ha with hb
    obtain rfl := hph ha
    subst hb
    cases he with
    | submit ho => exact h.early rfl rfl
  | outside o wake =>
    obtain rfl := hph ha
    cases he with
    | outside ho hu =>
      obtain rfl : ph = .before := by
        by_contra hne
        rw [h.outside hne] at ho
        cases ho
      exact h.early hu.fixed.1 hu.fixed.2.1
  | spawn i task =>
    obtain rfl := hph ha
    cases he with
    | spawn hw => exact h.busy hi i (.inl (by simp [hw, WorkerPc.task])) rfl rfl rfl
  | finish i =>
    obtain rfl := hph ha
    cases he with
    | finish hw => exact h.busy hi i (.inl (by simp [hw, WorkerPc.task])) rfl rfl rfl
  | worker i wake =>
    obtain rfl := hph ha
    have hstill : ∀ {pc : WorkerPc α} {v : State Unit α}, v.worker = s.worker →
        v.numWorkers = s.numWorkers → v.queue = s.queue → v.outside = s.outside →
        (v.runner = s.runner ∨ v.runner = s.runner.wake) → pc.task = (s.worker i).task →
        Hosted n (v.setWorker i pc) ph := by
      intro pc v hv hn hq ho hr hpc
      refine h.still hn hq ho (hmid hv hpc) ?_ fun hc => ?_
      · rcases hr with hr | hr
        · rw [setWorker_runner, hr]
        · rw [setWorker_runner, hr]
          cases s.runner <;> simp [RunPc.wake]
      · rcases hr with hr | hr
        · rwa [setWorker_runner, hr] at hc
        · rwa [setWorker_runner, hr, RunPc.closed_wake] at hc
    cases he with
    | call hw hu =>
      obtain ⟨hn, hr, ho⟩ := hu.fixed
      exact h.busy hi i (.inl (by simp [hw, WorkerPc.task])) hn hr ho
    | take hw hq => exact h.busy hi i (.inr (by simp [hw, hq])) rfl rfl rfl
    | lock hw hmu =>
      exact hstill rfl rfl rfl rfl (.inl rfl)
        (by rcases hw with hw | hw <;> simp [hw, WorkerPc.task])
    | found hw hp => exact hstill rfl rfl rfl rfl (.inl rfl) (by simp [hw, WorkerPc.task])
    | wait hw hq hd => exact hstill rfl rfl rfl rfl (.inl rfl) (by simp [hw, WorkerPc.task])
    | block hw => exact hstill rfl rfl rfl rfl (.inl rfl) (by simp [hw, WorkerPc.task])
    | exit hw hq => exact hstill rfl rfl rfl rfl (.inl rfl) (by simp [hw, WorkerPc.task])
    | last hw hp => exact hstill rfl rfl rfl rfl (.inl rfl) (by simp [hw, WorkerPc.task])
    | decrement hw hp => exact hstill rfl rfl rfl rfl (.inl rfl) (by simp [hw, WorkerPc.task])
    | notifyDone hw => exact hstill rfl rfl rfl rfl (.inr rfl) (by simp [hw, WorkerPc.task])
  | run m =>
    simp only [host] at ha
    split_ifs at ha with hm
    obtain rfl := hph ha
    cases he with
    | run hr => exact ⟨hm.2.1.le, by simp, fun _ => hm.2.2, fun _ hc => by cases hc⟩
  | runner =>
    obtain rfl := hph ha
    exact hosted_runner hi hsync h he
  | spuriousWorker i =>
    obtain rfl := hph ha
    cases he with
    | spuriousWorker hb =>
      refine h.still rfl rfl rfl (hmid rfl ?_) .rfl id
      cases hw : s.worker i <;> simp_all [WorkerPc.isBlocked, WorkerPc.task]
  | spuriousRunner =>
    obtain rfl := hph ha
    cases he with
    | spuriousRunner hr => exact h.open_runner rfl rfl (by simp [hr]) rfl

/-- The tasks that have been handed over and have not begun. -/
def held (n : ℕ) (s : State Unit α) : Multiset α :=
  (s.queue : Multiset α) + ∑ i ∈ Finset.range n, (callWaiting (s.worker i).call : Multiset α) +
    callWaiting (s.outside ())

theorem held_setWorker (hi : i < n) {pc : WorkerPc α} {v : State Unit α} (out inn : Multiset α)
    (hv : ∀ j, (v.worker j).call = (s.worker j).call) (ho : v.outside = s.outside)
    (h : (v.queue : Multiset α) + callWaiting pc.call + out =
      s.queue + callWaiting (s.worker i).call + inn) :
    held n (v.setWorker i pc) + out = held n s + inn := by
  have hsum := Counting.sum_update (Finset.mem_range.mpr hi) s.worker pc
    fun w => (callWaiting w.call : Multiset α)
  have hmove := Counting.exchange (by rw [← h, add_right_comm]) hsum
  have hcalls : ∀ j, (Function.update v.worker i pc j).call =
      (Function.update s.worker i pc j).call := by
    intro j
    rcases eq_or_ne j i with rfl | hne
    · rw [Function.update_self, Function.update_self]
    · rw [Function.update_of_ne hne, Function.update_of_ne hne, hv]
  simp only [held, setWorker_queue, setWorker_worker, setWorker_outside, hcalls, ho]
  rw [add_right_comm, add_right_comm (v.queue : Multiset α), hmove, add_right_comm]

theorem held_congr (hq : u.queue = s.queue) (ho : u.outside = s.outside)
    (hw : ∀ i, (u.worker i).call = (s.worker i).call) : held n u = held n s := by
  simp only [held, hq, ho, hw]

theorem started_eq (s : State Unit α) (ph : Phase) (k : Action Unit α) :
    (executor n α).started (s, ph) k = taken s k := by
  cases k with
  | worker i wake =>
    change ((taken s (.worker i wake)).map (Event.start i)).bind Event.started = _
    cases taken s (.worker i wake) <;> rfl
  | runner =>
    change (if s.returns then some (.ret : Event ℕ α) else none).bind Event.started = _
    cases s.returns <;> rfl
  | _ => rfl

theorem called_worker (s : State Unit α) (ph : Phase) (i : ℕ) (wake : Option ℕ) :
    (executor n α).called (s, ph) (.worker i wake) = none := by
  change ((taken s (.worker i wake)).map (Event.start i)).bind Event.called = _
  cases taken s (.worker i wake) <;> rfl

theorem called_runner (s : State Unit α) (ph : Phase) :
    (executor n α).called (s, ph) .runner = none := by
  change (if s.returns then some (.ret : Event ℕ α) else none).bind Event.called = _
  cases s.returns <;> rfl

/-- A step of a `submit` moves its task on. -/
theorem Submits.held {t : Thread Unit} {wake : Option ℕ} {call : SubmitPc α}
    {rest : Option (SubmitPc α)} (h : Submits s t wake call u rest) :
    (u.queue : Multiset α) + callWaiting rest = s.queue + callWaiting (some call) := by
  cases h <;> simp [callWaiting, ← Multiset.coe_add]

theorem held_worker (h : Hosted n s ph) (hi : Inv s) {wake : Option ℕ}
    (he : Effect s (.worker i wake) u) :
    held n u + ((taken s (.worker i wake)).toList : Multiset α) = held n s := by
  have hkeep : ∀ {pc : WorkerPc α} {v : State Unit α}, v.worker = s.worker →
      v.outside = s.outside → v.queue = s.queue → s.worker i ≠ .off →
      pc.call = (s.worker i).call → taken s (.worker i wake) = none →
      held n (v.setWorker i pc) + ((taken s (.worker i wake)).toList : Multiset α) = held n s := by
    intro pc v hv ho hq hon hpc hnone
    rw [hnone]
    exact (held_setWorker (h.on hi hon).2 0 0 (fun j => by rw [hv]) ho (by rw [hq, hpc])).trans
      (add_zero _)
  cases he with
  | @call _ _ x call rest v hw hu =>
    have hon : s.worker i ≠ .off := by simp [hw]
    rw [show taken s (.worker i wake) = none by simp [taken, hw]]
    refine (held_setWorker (h.on hi hon).2 0 0 (fun j => (hu.tasks j).2) hu.fixed.2.2 ?_).trans
      (add_zero _)
    rw [hw]
    exact congrArg (· + 0) hu.held
  | @take _ _ task rest hw hq =>
    have hon : s.worker i ≠ .off := by simp [hw]
    rw [show taken s (.worker i wake) = some task by simp [taken, hw, hq]]
    refine (held_setWorker (s := s) (v := { s with queue := rest, mu := none }) (h.on hi hon).2
      {task} 0 (fun _ => rfl) rfl ?_).trans (add_zero _)
    simp only [hw, hq, WorkerPc.call, callWaiting_none, Multiset.coe_nil, add_zero]
    rw [← Multiset.cons_coe, ← Multiset.singleton_add, add_comm]
  | lock hw hmu =>
    rcases hw with hw | hw <;>
    exact hkeep rfl rfl rfl (by simp [hw]) (by simp [hw, WorkerPc.call]) (by simp [taken, hw])
  | found hw hp =>
    exact hkeep rfl rfl rfl (by simp [hw]) (by simp [hw, WorkerPc.call]) (by simp [taken, hw])
  | wait hw hq hd =>
    exact hkeep rfl rfl rfl (by simp [hw]) (by simp [hw, WorkerPc.call]) (by simp [taken, hw])
  | block hw =>
    exact hkeep rfl rfl rfl (by simp [hw]) (by simp [hw, WorkerPc.call]) (by simp [taken, hw])
  | exit hw hq =>
    exact hkeep rfl rfl rfl (by simp [hw]) (by simp [hw, WorkerPc.call]) (by simp [taken, hw, hq])
  | last hw hp =>
    exact hkeep rfl rfl rfl (by simp [hw]) (by simp [hw, WorkerPc.call]) (by simp [taken, hw])
  | decrement hw hp =>
    exact hkeep rfl rfl rfl (by simp [hw]) (by simp [hw, WorkerPc.call]) (by simp [taken, hw])
  | notifyDone hw =>
    exact hkeep rfl rfl rfl (by simp [hw]) (by simp [hw, WorkerPc.call]) (by simp [taken, hw])

theorem calls_setWorker {pc : WorkerPc α} (hpc : pc.call = (s.worker i).call) (j : ℕ) :
    ((s.setWorker i pc).worker j).call = (s.worker j).call := by
  rcases eq_or_ne j i with rfl | hne
  · rwa [setWorker_worker, Function.update_self]
  · rw [setWorker_worker, Function.update_of_ne hne]

theorem held_runner (hi : Inv s) (he : Effect s .runner u) : held n u = held n s := by
  cases he with
  | @launch j hr hlt =>
    have hoff : s.worker j = .off := hi.off j (by simp [Active, hr])
    exact held_congr rfl rfl (calls_setWorker (by simp [hoff, WorkerPc.call]))
  | notifyAll hr => exact held_congr rfl rfl fun j => (s.worker j).call_wake
  | join hr hlt hw => exact held_congr rfl rfl (calls_setWorker (by simp [hw, WorkerPc.call]))
  | _ => rfl

/-- What a step hands over and what it begins. -/
theorem held_step (hi : Inv s) (h : Hosted n s ph) (he : Effect s k u) :
    held n u + (((executor n α).started (s, ph) k).toList : Multiset α) =
      held n s + (((executor n α).called (s, ph) k).toList : Multiset α) := by
  rw [started_eq]
  cases k with
  | submit o task =>
    cases he with
    | submit ho =>
      change held n (s.setOutside () (some (.lock task))) + 0 = held n s + {task}
      simp [held, State.setOutside, ho, callWaiting]
  | outside o wake =>
    cases he with
    | @outside _ _ call rest v ho hu =>
      change held n (v.setOutside () rest) + 0 = held n s + 0
      have hcalls : ∀ j, (v.worker j).call = (s.worker j).call := fun j => (hu.tasks j).2
      simp only [held, State.setOutside, hcalls, Function.update_self, ho, add_zero]
      rw [add_right_comm, hu.held, add_right_comm]
  | spawn j task =>
    cases he with
    | spawn hw =>
      refine held_setWorker (h.on hi (by simp [hw])).2 0 {task} (fun _ => rfl) rfl ?_
      simp [hw, WorkerPc.call, callWaiting]
  | finish j =>
    cases he with
    | finish hw =>
      exact held_setWorker (h.on hi (by simp [hw])).2 0 0 (fun _ => rfl) rfl
        (by simp [hw, WorkerPc.call])
  | worker i wake =>
    rw [called_worker, held_worker h hi he]
    exact (add_zero _).symm
  | run m =>
    cases he with
    | run hr => rfl
  | runner =>
    rw [called_runner, held_runner hi he]
    rfl
  | spuriousWorker j =>
    cases he with
    | spuriousWorker hb =>
      refine congrArg (· + 0)
        (held_congr (s := s) (u := s.setWorker j .woken) rfl rfl (calls_setWorker ?_))
      cases hw : s.worker j <;> simp_all [WorkerPc.isBlocked, WorkerPc.call]
  | spuriousRunner =>
    cases he with
    | spuriousRunner hr => rfl

/-- The laws of one step. -/
theorem changes_step (hi : Inv s) (h : Hosted n s ph) (ha : host n ph s k = some (k, ph'))
    (he : Effect s k u) : (executor n α).Changes (Finset.range n) (s, ph) (u, ph')
      ((executor n α).event (s, ph) k) := by
  have hph : ∀ {c : Phase}, some (k, c) = some (k, ph') → ph' = c := fun h =>
    (Prod.mk.inj (Option.some.inj h)).2.symm
  rcases he.tasks hi with ⟨i, rfl, hw, hset⟩ | ⟨i, wake, x, rfl, htake, hw, hset⟩ |
      ⟨hfin, hnone, hsame⟩
  · exact ⟨hw, hset, hph ha⟩
  · obtain ⟨hrun, hlt⟩ := h.on hi (i := i) (by simp [hw])
    have hevent : (executor n α).event (s, ph) (.worker i wake) = some (.start i x) :=
      congrArg (Option.map (Event.start i)) htake
    rw [hevent]
    exact ⟨hrun, Finset.mem_range.mpr hlt, by simp [executor, hw, WorkerPc.task], hset,
      (hph ha).trans hrun⟩
  · have hcur : (executor n α).current (u, ph') = (executor n α).current (s, ph) := funext hsame
    cases k with
    | submit o task =>
      simp only [host] at ha
      split_ifs at ha with hb
      exact ⟨hb, hcur, (hph ha).trans hb⟩
    | outside o wake => exact ⟨hcur, hph ha⟩
    | spawn i task =>
      cases he with
      | spawn hw => exact ⟨by simp [executor, hw, WorkerPc.task], hcur, hph ha⟩
    | finish i => exact absurd rfl (hfin i)
    | worker i wake =>
      have hevent : (executor n α).event (s, ph) (.worker i wake) = none :=
        congrArg (Option.map (Event.start i)) hnone
      rw [hevent]
      exact ⟨hcur, hph ha⟩
    | run m =>
      simp only [host] at ha
      split_ifs at ha with hm
      exact ⟨hm.1, hcur, hph ha⟩
    | runner =>
      have hp := hph ha
      change (executor n α).Changes _ _ _ (if s.returns then some .ret else none)
      split_ifs at hp ⊢ with hr
      · refine ⟨h.phase.mpr fun hidle => ?_, hcur, hp⟩
        simp [State.returns, hidle] at hr
      · exact ⟨hcur, hp⟩
    | spuriousWorker i => exact ⟨hcur, hph ha⟩
    | spuriousRunner => exact ⟨hcur, hph ha⟩

/-- Where `run` returns nothing is left. -/
theorem Hosted.of_ret (h : Hosted n s ph) (he : (executor n α).event (s, ph) k = some .ret) :
    ph = .running ∧ s.queue = [] ∧ ∀ i, (s.worker i).task = none := by
  cases k with
  | runner =>
    have hr : s.returns = true := by
      by_contra hr
      rw [show (executor n α).event (s, ph) .runner = none from if_neg hr] at he
      cases he
    have hjoin : s.runner ≠ .idle ∧ s.runner.closed = true := by
      cases hpc : s.runner <;> simp_all [State.returns, RunPc.closed]
    have hon := h.phase.mpr hjoin.1
    exact ⟨hon, h.done (by simp [hon]) hjoin.2⟩
  | worker i wake =>
    obtain ⟨x, -, hx⟩ := Option.map_eq_some_iff.mp he
    cases hx
  | _ => cases he

end Steps

section Runs
variable {n : ℕ} {tr : List ((State Unit α × Phase) × Action Unit α)} {s u : State Unit α × Phase}
  {k : Action Unit α}

/-- What holds in every run under the caller of `run`. -/
structure Served (n : ℕ) (s : State Unit α × Phase) : Prop where
  inv : Inv s.1
  sync : Sync s.1
  hosted : Hosted n s.1 s.2

theorem served_init : Served n (executor n α).machine.init := ⟨inv_init, sync_init, hosted_init⟩

theorem served_step (s : State Unit α × Phase) (k : Action Unit α) (u : State Unit α × Phase)
    (h : Served n s) (hs : (executor n α).machine.step s k = some u) : Served n u := by
  obtain ⟨ha, he⟩ := host_step hs
  obtain ⟨a, ha', hstep⟩ := drive_step hs
  obtain rfl : k = a := (Prod.mk.inj (Option.some.inj (ha.symm.trans ha'))).1
  exact ⟨inv_step _ _ _ h.inv hstep, sync_step h.inv h.sync hstep,
    hosted_step h.inv h.sync h.hosted ha he⟩

/-- Every task that has been handed over has begun, or is still held. -/
theorem called_eq (h : Run (executor n α).machine tr s) :
    Served n s ∧ (log (executor n α).called tr : Multiset α) =
      log (executor n α).started tr + held n s.1 := by
  refine Run.history (I := fun tr s => Served n s ∧
    (log (executor n α).called tr : Multiset α) = log (executor n α).started tr + held n s.1)
    ⟨served_init, ?_⟩ (fun tr s k u hu hs => ⟨served_step s k u hu.1 hs, ?_⟩) h
  · simp [held, executor, Machine.drive, machine, WorkerPc.call]
  · have hstep := held_step hu.1.inv hu.1.hosted (host_step hs).2
    rw [log_snoc, log_snoc, ← Multiset.coe_add, ← Multiset.coe_add, hu.2, add_assoc, add_assoc,
      ← hstep, add_comm (held n u.1)]

/-- MutexQueueScheduler obeys the laws of an executor, for any number of workers. -/
theorem lawful (n : ℕ) : (executor n α).Lawful (Finset.range n) fun _ => True where
  init := ⟨rfl, rfl⟩
  changes s a s' hr hs := by
    obtain ⟨tr, htr⟩ := hr
    have hserved := (called_eq htr).1
    obtain ⟨ha, he⟩ := host_step hs
    exact changes_step hserved.inv hserved.hosted ha he
  started_le tr s hr _ := by
    rw [(called_eq hr).2]
    exact Multiset.le_add_right _ _
  ret tr s a s' hr _ hs he := by
    obtain ⟨hserved, heq⟩ := called_eq hr
    obtain ⟨hon, hq, hidle⟩ := hserved.hosted.of_ret he
    have hcall : ∀ i, (s.1.worker i).call = none := fun i => by
      have hi := hidle i
      cases hw : s.1.worker i <;> simp_all [WorkerPc.task, WorkerPc.call]
    have hout := hserved.hosted.outside (by simp [hon])
    have hnone : held n s.1 = 0 := by simp [held, hq, hcall, hout]
    rw [heq, hnone, add_zero]
    exact ⟨rfl, hidle⟩

end Runs

end TaskScheduler.MutexQueue
