import TaskScheduler.DequeModel
import TaskScheduler.StealingModel

/-!
# WorkStealingScheduler over its deques

One scheduler, with every access inside `push_bottom`, `pop_bottom` and `steal` a transition of
its own: the context of a worker holds a `ChaseLevDeque`, and worker `i` is the thief `i` of the
deques of the others.
-/
namespace TaskScheduler.StealingDeques
open Transition
open WorkStealing (SubmitPc WorkerPc RunPc asInt u32 sweepStart victim)

/-- A thread that can call `submit`. -/
inductive Thread (ι : Type*)
  | worker (i : ℕ)
  | outside (o : ι)
deriving DecidableEq

/-- The `tl_worker_id_` of a worker once its loop has begun, and of any other thread. -/
def Thread.tlWorkerId {ι : Type*} : Thread ι → ℤ
  | .worker i => asInt i
  | .outside _ => -1

/-- The members, the program counters of the workers and of `run`, and the calls of `submit`. A
thread at `pushLocal` is inside `push_bottom` when the owner of its deque is not idle, and so is
a worker at `pop` inside `pop_bottom`, one at `steal` inside `steal`, and `run` at `drain`.
`pending_` is an integer for the same reason as in `WorkStealing.Instance`. -/
structure State (ι α : Type*) where
  injectMu : Bool
  injectQueue : List α
  pending : ℤ
  shutdown : Bool
  numWorkers : ℕ
  size : ℕ
  deque : ℕ → Option (Deque.State ℕ α)
  run : RunPc
  worker : ℕ → WorkerPc α
  call : Thread ι → Option (SubmitPc α)

/-- The thread that moves; `rng` is what the worker's generator returns in this step. -/
inductive Action (ι α : Type*)
  | submit (t : Thread ι) (task : α)
  | call (t : Thread ι)
  | worker (i : ℕ) (rng : ℕ)
  | finish (i : ℕ)
  | run (numWorkers : ℕ)
  | runner

variable {ι α : Type*}

def State.setDeque (s : State ι α) (i : ℕ) (d : Deque.State ℕ α) : State ι α :=
  { s with deque := Function.update s.deque i (some d) }

def State.setWorker (s : State ι α) (i : ℕ) (pc : WorkerPc α) : State ι α :=
  { s with worker := Function.update s.worker i pc }

section Setters
variable (s : State ι α) (i : ℕ) (d : Deque.State ℕ α) (pc : WorkerPc α)

@[simp] theorem setDeque_injectMu : (s.setDeque i d).injectMu = s.injectMu := rfl
@[simp] theorem setDeque_injectQueue : (s.setDeque i d).injectQueue = s.injectQueue := rfl
@[simp] theorem setDeque_pending : (s.setDeque i d).pending = s.pending := rfl
@[simp] theorem setDeque_numWorkers : (s.setDeque i d).numWorkers = s.numWorkers := rfl
@[simp] theorem setDeque_run : (s.setDeque i d).run = s.run := rfl
@[simp] theorem setDeque_worker : (s.setDeque i d).worker = s.worker := rfl
@[simp] theorem setDeque_call : (s.setDeque i d).call = s.call := rfl
@[simp] theorem setDeque_deque :
    (s.setDeque i d).deque = Function.update s.deque i (some d) := rfl

@[simp] theorem setWorker_injectMu : (s.setWorker i pc).injectMu = s.injectMu := rfl
@[simp] theorem setWorker_injectQueue : (s.setWorker i pc).injectQueue = s.injectQueue := rfl
@[simp] theorem setWorker_pending : (s.setWorker i pc).pending = s.pending := rfl
@[simp] theorem setWorker_numWorkers : (s.setWorker i pc).numWorkers = s.numWorkers := rfl
@[simp] theorem setWorker_run : (s.setWorker i pc).run = s.run := rfl
@[simp] theorem setWorker_deque : (s.setWorker i pc).deque = s.deque := rfl
@[simp] theorem setWorker_call : (s.setWorker i pc).call = s.call := rfl
@[simp] theorem setWorker_worker :
    (s.setWorker i pc).worker = Function.update s.worker i pc := rfl

end Setters

/-- The next access of `push_bottom(task)`, and whether it is the last one. -/
def pushStep (d : Deque.State ℕ α) (task : α) : Option (Deque.State ℕ α × Bool) :=
  match d.owner with
  | .idle => (Deque.step d (.push task)).map fun d' => (d', false)
  | _ => (Deque.step d .owner).map fun d' => (d', (Deque.pushed d .owner).isSome)

/-- The next access of `pop_bottom`, and what it returns. -/
def popStep (d : Deque.State ℕ α) : Option (Deque.State ℕ α × Option (Option α)) :=
  match d.owner with
  | .idle => (Deque.step d .pop).map fun d' => (d', none)
  | _ => (Deque.step d .owner).map fun d' => (d', Deque.popReturn d .owner)

/-- The next access of `steal` by worker `i`, and what it returns. -/
def stealStep (d : Deque.State ℕ α) (i : ℕ) :
    Option (Deque.State ℕ α × Option (Deque.StealResult α)) :=
  match d.thief i with
  | .idle => (Deque.step d (.steal i)).map fun d' => (d', none)
  | _ => (Deque.step d (.thief i)).map fun d' => (d', Deque.stealReturn d (.thief i))

/-- The next access of a `submit` by thread `t`. -/
def submitStep (s : State ι α) (t : Thread ι) :
    SubmitPc α → Option (State ι α × Option (SubmitPc α))
  | .check task =>
    if 0 ≤ t.tlWorkerId ∧ t.tlWorkerId < asInt s.size then
      some (s, some (.addLocal t.tlWorkerId task))
    else some (s, some (.lock task))
  | .addLocal wid task => some ({ s with pending := s.pending + 1 }, some (.pushLocal wid task))
  | .pushLocal wid task =>
    (s.deque wid.toNat).bind fun d => (pushStep d task).map fun r =>
      (s.setDeque wid.toNat r.1, if r.2 then none else some (.pushLocal wid task))
  | .lock task =>
    if s.injectMu then none else some ({ s with injectMu := true }, some (.addInject task))
  | .addInject task => some ({ s with pending := s.pending + 1 }, some (.pushInject task))
  | .pushInject task =>
    some ({ s with injectQueue := s.injectQueue ++ [task], injectMu := false }, none)

def afterPop : Option (Option α) → WorkerPc α
  | none => .pop
  | some (some task) => .running task
  | some none => .checkPending

def afterSteal (start attempt : ℕ) : Option (Deque.StealResult α) → WorkerPc α
  | none => .steal start attempt
  | some ⟨some task, _⟩ => .running task
  | some ⟨none, _⟩ => .steal start (attempt + 1)

def workerStep (s : State ι α) (i rng : ℕ) : WorkerPc α → Option (State ι α × WorkerPc α)
  | .start => some (s, .pop)
  | .pop => (s.deque i).bind fun d => (popStep d).map fun r => (s.setDeque i r.1, afterPop r.2)
  | .checkPending => some (s, if s.pending = 0 then .exited else .checkShutdown)
  | .checkShutdown => some (s, if s.shutdown then .exited else .pick)
  | .pick =>
    some (s, if s.size > 1 then .steal (sweepStart (u32 s.size) i rng) 0 else .pop)
  | .steal start attempt =>
    if attempt < u32 s.size - 1 then
      let v := victim (u32 s.size) i start attempt
      (s.deque v).bind fun d => (stealStep d i).map fun r =>
        (s.setDeque v r.1, afterSteal start attempt r.2)
    else some (s, .pop)
  | _ => none

def runStep (s : State ι α) : RunPc → Option (State ι α)
  | .clear => some { s with size := 0, deque := fun _ => none, run := .resize }
  | .resize => some { s with size := s.numWorkers, run := .build 0 }
  | .build i =>
    if i < s.numWorkers then
      some { s.setDeque i (Deque.machine ℕ α).init with run := .build (i + 1) }
    else some { s with run := .reset }
  | .reset => some { s with shutdown := false, run := .lockDrain }
  | .lockDrain => if s.injectMu then none else some { s with injectMu := true, run := .drain }
  | .drain =>
    match s.injectQueue with
    | task :: rest =>
      (s.deque 0).bind fun d => (pushStep d task).map fun r =>
        { s.setDeque 0 r.1 with injectQueue := if r.2 then rest else task :: rest }
    | [] => some { s with injectMu := false, run := .launch 0 }
  | .launch i =>
    if i < s.numWorkers then some { s.setWorker i .start with run := .launch (i + 1) }
    else some { s with run := .wait }
  | .wait => if s.pending > 0 then some s else some { s with run := .setShutdown }
  | .setShutdown => some { s with shutdown := true, run := .join 0 }
  | .join i =>
    if i < s.numWorkers then
      if (s.worker i).isExited then some { s.setWorker i .off with run := .join (i + 1) } else none
    else some { s with run := .clearEnd }
  | .clearEnd => some { s with size := 0, deque := fun _ => none, run := .idle }
  | .idle => none

/-- Only a thread outside or a worker in the middle of a task calls `submit`. -/
def canSubmit (s : State ι α) : Thread ι → Bool
  | .worker i => (s.worker i).isRunning && (s.call (.worker i)).isNone
  | .outside o => (s.call (.outside o)).isNone

variable [DecidableEq ι]

def State.setCall (s : State ι α) (t : Thread ι) (c : Option (SubmitPc α)) : State ι α :=
  { s with call := Function.update s.call t c }

section SetCall
variable (s : State ι α) (t : Thread ι) (c : Option (SubmitPc α))

@[simp] theorem setCall_injectMu : (s.setCall t c).injectMu = s.injectMu := rfl
@[simp] theorem setCall_injectQueue : (s.setCall t c).injectQueue = s.injectQueue := rfl
@[simp] theorem setCall_pending : (s.setCall t c).pending = s.pending := rfl
@[simp] theorem setCall_numWorkers : (s.setCall t c).numWorkers = s.numWorkers := rfl
@[simp] theorem setCall_run : (s.setCall t c).run = s.run := rfl
@[simp] theorem setCall_deque : (s.setCall t c).deque = s.deque := rfl
@[simp] theorem setCall_worker : (s.setCall t c).worker = s.worker := rfl
@[simp] theorem setCall_call : (s.setCall t c).call = Function.update s.call t c := rfl

end SetCall

def step (s : State ι α) : Action ι α → Option (State ι α)
  | .submit t task => if canSubmit s t then some (s.setCall t (some (.check task))) else none
  | .call t =>
    match s.call t with
    | none => none
    | some pc => (submitStep s t pc).map fun r => r.1.setCall t r.2
  | .worker i rng => (workerStep s i rng (s.worker i)).map fun r => r.1.setWorker i r.2
  | .finish i =>
    match s.worker i, s.call (.worker i) with
    | .running _, none =>
      some ({ s with pending := s.pending - 1 }.setWorker i
        (if s.pending = 1 then .exited else .pop))
    | _, _ => none
  | .run n =>
    match s.run with
    | .idle => if n < 2 ^ 32 then some { s with numWorkers := n, run := .clear } else none
    | _ => none
  | .runner => runStep s s.run

def machine (ι α : Type*) [DecidableEq ι] : Machine (State ι α) (Action ι α) where
  init :=
    { injectMu := false, injectQueue := [], pending := 0, shutdown := false, numWorkers := 0
      size := 0, deque := fun _ => none, run := .idle, worker := fun _ => .off
      call := fun _ => none }
  step := step

/-- The task that a `submit` counts in by this step. -/
def submitted (s : State ι α) : Action ι α → Option α
  | .call t =>
    match s.call t with
    | some (.addLocal _ task) | some (.addInject task) => some task
    | _ => none
  | _ => none

/-- The task that a worker receives from a deque by this step, and runs next. -/
def started (s : State ι α) (a : Action ι α) : Option α :=
  match a with
  | .worker i rng =>
    match workerStep s i rng (s.worker i) with
    | some (_, .running task) => some task
    | _ => none
  | _ => none

/-- The task whose run ends, and is counted off, by this step. -/
def completed (s : State ι α) : Action ι α → Option α
  | .finish i =>
    match s.worker i with
    | .running task => some task
    | _ => none
  | _ => none

end TaskScheduler.StealingDeques
