import TaskScheduler.Transition

/-!
# MutexQueueScheduler

The mutex and its two condition variables, `submit`, `run` and `worker_loop`, one
locked region access per transition; `mu_` is released together with the last
access made under it. A waiter that was notified takes `mu_` again and evaluates
its predicate again, as `wait` with a predicate does.
-/
namespace TaskScheduler.MutexQueue
open Transition

inductive Thread (ι : Type*)
  | runner
  | worker (i : ℕ)
  | outside (o : ι)

/-- A call of `submit` that has not returned. -/
inductive SubmitPc (α : Type*)
  | lock (task : α)
  | add (task : α)
  | push (task : α)
  | notify

/-- A worker thread. `check` evaluates the predicate of `cv_`, `block` is between a false
answer and the release of `mu_`, `blocked` is on `cv_`, `woken` has left it and waits for
`mu_`. A running task may be inside a `submit` of its own. -/
inductive WorkerPc (α : Type*)
  | off
  | lock
  | check
  | block
  | blocked
  | woken
  | take
  | running (task : α) (call : Option (SubmitPc α))
  | decrement
  | notifyDone
  | exited

inductive RunPc
  | idle
  | lockReset
  | reset
  | spawn (i : ℕ)
  | lockWait
  | check
  | block
  | blocked
  | woken
  | setShutdown
  | notifyAll
  | join (i : ℕ)
deriving DecidableEq

/-- `pending_` counts tasks that are in memory at the same time, far fewer than `2 ^ 63`, so the
`int64_t` never wraps and is an integer here. -/
structure State (ι α : Type*) where
  mu : Option (Thread ι)
  queue : List α
  pending : ℤ
  shutdown : Bool
  numWorkers : ℕ
  runner : RunPc
  worker : ℕ → WorkerPc α
  outside : ι → Option (SubmitPc α)

/-- The party that moves, with the worker a `notify_one` of this step wakes. -/
inductive Action (ι α : Type*)
  | submit (o : ι) (task : α)
  | outside (o : ι) (wake : Option ℕ)
  | spawn (i : ℕ) (task : α)
  | finish (i : ℕ)
  | worker (i : ℕ) (wake : Option ℕ)
  | run (numWorkers : ℕ)
  | runner
  | spuriousWorker (i : ℕ)
  | spuriousRunner

def Action.isSpurious {ι α : Type*} : Action ι α → Bool
  | .spuriousWorker _ | .spuriousRunner => true
  | _ => false

variable {ι α : Type*}

def WorkerPc.isBlocked : WorkerPc α → Bool
  | .blocked => true
  | _ => false

def WorkerPc.isExited : WorkerPc α → Bool
  | .exited => true
  | _ => false

def WorkerPc.wake : WorkerPc α → WorkerPc α
  | .blocked => .woken
  | pc => pc

def RunPc.wake : RunPc → RunPc
  | .blocked => .woken
  | pc => pc

def State.setWorker (s : State ι α) (i : ℕ) (pc : WorkerPc α) : State ι α :=
  { s with worker := Function.update s.worker i pc }

section SetWorker
variable (s : State ι α) (i : ℕ) (pc : WorkerPc α)

@[simp] theorem setWorker_mu : (s.setWorker i pc).mu = s.mu := rfl
@[simp] theorem setWorker_queue : (s.setWorker i pc).queue = s.queue := rfl
@[simp] theorem setWorker_pending : (s.setWorker i pc).pending = s.pending := rfl
@[simp] theorem setWorker_shutdown : (s.setWorker i pc).shutdown = s.shutdown := rfl
@[simp] theorem setWorker_numWorkers : (s.setWorker i pc).numWorkers = s.numWorkers := rfl
@[simp] theorem setWorker_runner : (s.setWorker i pc).runner = s.runner := rfl
@[simp] theorem setWorker_outside : (s.setWorker i pc).outside = s.outside := rfl

@[simp] theorem setWorker_worker :
    (s.setWorker i pc).worker = Function.update s.worker i pc := rfl

end SetWorker

/-- `cv_.notify_one()`: one blocked worker, of the implementation's choice, if there is any. -/
def notifyOne (s : State ι α) : Option ℕ → Option (State ι α)
  | some i => if (s.worker i).isBlocked then some (s.setWorker i .woken) else none
  | none => if ∃ i < s.numWorkers, (s.worker i).isBlocked then none else some s

/-- The next access of a `submit` made by thread `t`, with the call's remaining part. -/
def submitStep (s : State ι α) (t : Thread ι) (wake : Option ℕ) :
    SubmitPc α → Option (State ι α × Option (SubmitPc α))
  | .lock task => if s.mu = none then some ({ s with mu := some t }, some (.add task)) else none
  | .add task => some ({ s with pending := s.pending + 1 }, some (.push task))
  | .push task => some ({ s with queue := s.queue ++ [task], mu := none }, some .notify)
  | .notify => (notifyOne s wake).map fun s' => (s', none)

def workerStep (s : State ι α) (i : ℕ) (wake : Option ℕ) :
    WorkerPc α → Option (State ι α)
  | .lock => if s.mu = none then some ({ s with mu := some (.worker i) }.setWorker i .check) else none
  | .check =>
    if s.queue ≠ [] ∨ s.shutdown then some (s.setWorker i .take) else some (s.setWorker i .block)
  | .block => some ({ s with mu := none }.setWorker i .blocked)
  | .woken =>
    if s.mu = none then some ({ s with mu := some (.worker i) }.setWorker i .check) else none
  | .take =>
    match s.queue with
    | [] => some ({ s with mu := none }.setWorker i .exited)
    | task :: rest => some ({ s with queue := rest, mu := none }.setWorker i (.running task none))
  | .running task (some call) =>
    (submitStep s (.worker i) wake call).map fun r => r.1.setWorker i (.running task r.2)
  | .decrement =>
    let remaining := s.pending - 1
    some ({ s with pending := remaining }.setWorker i (if remaining = 0 then .notifyDone else .lock))
  | .notifyDone => some ({ s with runner := s.runner.wake }.setWorker i .lock)
  | _ => none

def runStep (s : State ι α) : RunPc → Option (State ι α)
  | .lockReset => if s.mu = none then some { s with mu := some .runner, runner := .reset } else none
  | .reset => some { s with shutdown := false, mu := none, runner := .spawn 0 }
  | .spawn i =>
    if i < s.numWorkers then some { s.setWorker i .lock with runner := .spawn (i + 1) }
    else some { s with runner := .lockWait }
  | .lockWait => if s.mu = none then some { s with mu := some .runner, runner := .check } else none
  | .check => some { s with runner := if s.pending = 0 then .setShutdown else .block }
  | .block => some { s with mu := none, runner := .blocked }
  | .woken => if s.mu = none then some { s with mu := some .runner, runner := .check } else none
  | .setShutdown => some { s with shutdown := true, mu := none, runner := .notifyAll }
  | .notifyAll => some { s with worker := fun i => (s.worker i).wake, runner := .join 0 }
  | .join i =>
    if i < s.numWorkers then
      if (s.worker i).isExited then some { s.setWorker i .off with runner := .join (i + 1) } else none
    else some { s with runner := .idle }
  | _ => none

variable [DecidableEq ι]

def step (s : State ι α) : Action ι α → Option (State ι α)
  | .submit o task =>
    match s.outside o with
    | none => some { s with outside := Function.update s.outside o (some (.lock task)) }
    | some _ => none
  | .outside o wake =>
    match s.outside o with
    | none => none
    | some call => (submitStep s (.outside o) wake call).map fun r =>
        { r.1 with outside := Function.update r.1.outside o r.2 }
  | .spawn i task =>
    match s.worker i with
    | .running x none => some (s.setWorker i (.running x (some (.lock task))))
    | _ => none
  | .finish i =>
    match s.worker i with
    | .running _ none => some (s.setWorker i .decrement)
    | _ => none
  | .worker i wake => workerStep s i wake (s.worker i)
  | .run n =>
    match s.runner with
    | .idle => some { s with numWorkers := n, runner := .lockReset }
    | _ => none
  | .runner => runStep s s.runner
  | .spuriousWorker i => if (s.worker i).isBlocked then some (s.setWorker i .woken) else none
  | .spuriousRunner =>
    match s.runner with
    | .blocked => some { s with runner := .woken }
    | _ => none

def machine (ι α : Type*) [DecidableEq ι] : Machine (State ι α) (Action ι α) where
  init :=
    { mu := none, queue := [], pending := 0, shutdown := false, numWorkers := 0
      runner := .idle, worker := fun _ => .off, outside := fun _ => none }
  step := step

end TaskScheduler.MutexQueue
