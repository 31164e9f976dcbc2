import TaskScheduler.RingModel

/-!
# LockFreeQueueScheduler

`submit`, `run`, `worker_loop` and the destructor over the ring, one atomic access per
transition. Threads outside call `submit` and `run`; the `num_workers` threads that a `run`
launches are its crew.
-/
namespace TaskScheduler.LockFree
open Transition

inductive Thread (ι ω : Type*)
  | outside (i : ι)
  | worker (w : ω)
  | destructor
deriving DecidableEq, Fintype

/-- `worker_loop`: `fetch` is inside `dequeue`, `submitting` is inside the `enqueue` of a
`submit` by the running task. -/
inductive WorkerPc (α : Type*)
  | off
  | fetch
  | running (task : α)
  | submitting (task : α)
  | decrement (task : α)
  | checkShutdown
  | exited

/-- `run` by the thread `caller`; `rest` are the workers still to be launched or joined.
`draining` and `destroyed` belong to the destructor. -/
inductive RunPc (ι ω : Type*)
  | idle
  | launch (caller : ι) (crew rest : List ω)
  | wait (caller : ι) (crew : List ω)
  | setShutdown (caller : ι) (crew : List ω)
  | join (caller : ι) (crew rest : List ω)
  | draining
  | destroyed

structure State (ι ω α : Type*) where
  ring : Ring.State (Thread ι ω) α
  pending : ℤ
  shutdown : Bool
  worker : ω → WorkerPc α
  run : RunPc ι ω

/-- The thread that moves. `access` is its next access inside `enqueue` or `dequeue`. -/
inductive Action (ι ω α : Type*)
  | submit (i : ι) (task : α)
  | spawn (w : ω) (task : α)
  | access (t : Thread ι ω) (spurious : Bool)
  | worker (w : ω)
  | finish (w : ω)
  | run (i : ι) (crew : List ω)
  | runner
  | destroy
  | drain

variable {ι ω α : Type*}

/-- The thread may not call `submit`: it is inside `run`, or the scheduler is being destroyed. -/
def RunPc.excludes [DecidableEq ι] (i : ι) : RunPc ι ω → Bool
  | .idle => false
  | .launch caller _ _ | .wait caller _ | .setShutdown caller _ | .join caller _ _ =>
    decide (caller = i)
  | .draining | .destroyed => true

variable [DecidableEq ω]

def State.setWorker (s : State ι ω α) (w : ω) (pc : WorkerPc α) : State ι ω α :=
  { s with worker := Function.update s.worker w pc }

variable [DecidableEq ι]

def State.onRing (log2Ring : ℕ) (s : State ι ω α) (a : Ring.Action (Thread ι ω) α) :
    Option (State ι ω α) :=
  (Ring.step log2Ring s.ring a).map fun r => { s with ring := r }

/-- `pending_.fetch_add(1)`, and the call of `enqueue`. -/
def submit (log2Ring : ℕ) (s : State ι ω α) (t : Thread ι ω) (task : α) : Option (State ι ω α) :=
  { s with pending := int64 (s.pending + 1) }.onRing log2Ring (.enqueue t task)

/-- The next step of `worker_loop`, outside `enqueue` and `dequeue`. -/
def workerStep (log2Ring : ℕ) (s : State ι ω α) (w : ω) : Option (State ι ω α) :=
  match s.worker w, s.ring.threads (.worker w) with
  | .fetch, .returned (some task) =>
    (s.setWorker w (.running task)).onRing log2Ring (.finish (.worker w))
  | .fetch, .returned none => (s.setWorker w .checkShutdown).onRing log2Ring (.finish (.worker w))
  | .submitting task, .idle => some (s.setWorker w (.running task))
  | .decrement _, _ =>
    ({ s with pending := int64 (s.pending - 1) }.setWorker w .fetch).onRing log2Ring
      (.dequeue (.worker w))
  | .checkShutdown, _ =>
    if s.shutdown then some (s.setWorker w .exited)
    else (s.setWorker w .fetch).onRing log2Ring (.dequeue (.worker w))
  | _, _ => none

/-- The next step of `run`. -/
def runStep (log2Ring : ℕ) (s : State ι ω α) : Option (State ι ω α) :=
  match s.run with
  | .launch i crew (w :: rest) =>
    ({ s with run := .launch i crew rest }.setWorker w .fetch).onRing log2Ring (.dequeue (.worker w))
  | .launch i crew [] => some { s with run := .wait i crew }
  | .wait i crew => if s.pending > 0 then some s else some { s with run := .setShutdown i crew }
  | .setShutdown i crew => some { s with shutdown := true, run := .join i crew crew }
  | .join i crew (w :: rest) =>
    match s.worker w with
    | .exited => some ({ s with run := .join i crew rest }.setWorker w .off)
    | _ => none
  | .join _ _ [] => some { s with run := .idle }
  | _ => none

/-- The loop of the destructor, which deletes what `dequeue` returns. -/
def drainStep (log2Ring : ℕ) (s : State ι ω α) : Option (State ι ω α) :=
  match s.run, s.ring.threads .destructor with
  | .draining, .returned (some _) => s.onRing log2Ring (.finish .destructor)
  | .draining, .returned none =>
    { s with run := .destroyed }.onRing log2Ring (.finish .destructor)
  | .draining, .idle => s.onRing log2Ring (.dequeue .destructor)
  | _, _ => none

variable [Fintype ι]

/-- The destructor runs when no other thread is inside the scheduler. -/
def step (log2Ring : ℕ) (s : State ι ω α) : Action ι ω α → Option (State ι ω α)
  | .submit i task => if s.run.excludes i then none else submit log2Ring s (.outside i) task
  | .spawn w task =>
    match s.worker w with
    | .running task' => submit log2Ring (s.setWorker w (.submitting task')) (.worker w) task
    | _ => none
  | .access t spurious => s.onRing log2Ring (.access t spurious)
  | .worker w => workerStep log2Ring s w
  | .finish w =>
    match s.worker w with
    | .running task => some (s.setWorker w (.decrement task))
    | _ => none
  | .run i crew =>
    match s.run with
    | .idle =>
      if (s.ring.threads (.outside i)).isIdle ∧ crew.Nodup then
        some { s with shutdown := false, run := .launch i crew crew }
      else none
    | _ => none
  | .runner => runStep log2Ring s
  | .destroy =>
    match s.run with
    | .idle =>
      if ∀ i, (s.ring.threads (.outside i)).isIdle then some { s with run := .draining } else none
    | _ => none
  | .drain => drainStep log2Ring s

def machine (ι ω α : Type*) [DecidableEq ι] [Fintype ι] [DecidableEq ω] (log2Ring : ℕ) :
    Machine (State ι ω α) (Action ι ω α) where
  init :=
    { ring := (Ring.machine (Thread ι ω) α log2Ring).init
      pending := 0
      shutdown := false
      worker := fun _ => .off
      run := .idle }
  step := step log2Ring

/-- The `kLog2Ring` of the scheduler. -/
def kLog2Ring : ℕ := 17

/-- The task that a `submit` counts in by this step. -/
def submitted (_ : State ι ω α) : Action ι ω α → Option α
  | .submit _ task | .spawn _ task => some task
  | _ => none

/-- The task that a thread outside submits by this step. -/
def submittedOutside (_ : State ι ω α) : Action ι ω α → Option α
  | .submit _ task => some task
  | _ => none

/-- The task whose run starts by this step. -/
def started (s : State ι ω α) : Action ι ω α → Option α
  | .worker w =>
    match s.worker w, s.ring.threads (.worker w) with
    | .fetch, .returned task => task
    | _, _ => none
  | _ => none

/-- The task whose run has ended and which this step counts off. -/
def completed (s : State ι ω α) : Action ι ω α → Option α
  | .worker w =>
    match s.worker w with
    | .decrement task => some task
    | _ => none
  | _ => none

/-- The task that the destructor deletes by this step. -/
def deleted (s : State ι ω α) : Action ι ω α → Option α
  | .drain =>
    match s.ring.threads .destructor with
    | .returned task => task
    | _ => none
  | _ => none

end TaskScheduler.LockFree
