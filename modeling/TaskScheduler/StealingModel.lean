import TaskScheduler.Transition

/-!
# WorkStealingScheduler

Any number of scheduler instances, their workers, the threads outside them and the
thread-local worker id that all instances share. One shared access is one transition;
a deque operation is one access, to a double-ended list.
-/
namespace TaskScheduler.WorkStealing
open Transition

inductive Thread (κ ι : Type*)
  | worker (k : κ) (i : ℕ)
  | outside (o : ι)
deriving DecidableEq

/-- Conversion to `uint32_t`. -/
def u32 (n : ℕ) : ℕ := n % 2 ^ 32

/-- `static_cast<int>` of an unsigned value. -/
def asInt (n : ℕ) : ℤ := (n : ℤ).bmod (2 ^ 32)

/-- A call of `submit` that has not returned. -/
inductive SubmitPc (α : Type*)
  | check (task : α)
  | addLocal (wid : ℤ) (task : α)
  | pushLocal (wid : ℤ) (task : α)
  | lock (task : α)
  | addInject (task : α)
  | pushInject (task : α)

/-- `worker_loop`. After a task has run, the next access is the decrement of `pending_`,
whether the task was popped or stolen. -/
inductive WorkerPc (α : Type*)
  | off
  | start
  | pop
  | running (task : α)
  | checkPending
  | checkShutdown
  | pick
  | steal (start attempt : ℕ)
  | exited

inductive RunPc
  | idle
  | clear
  | resize
  | build (i : ℕ)
  | reset
  | lockDrain
  | drain
  | launch (i : ℕ)
  | wait
  | setShutdown
  | join (i : ℕ)
  | clearEnd
deriving DecidableEq

/-- The members of one scheduler. `workers_` has length `size`, and `deque i` is the deque
of its `i`-th context, none where there is no context. `pending_` counts tasks that are in memory
at the same time, far fewer than `2 ^ 63`, so the `int64_t` never wraps and is an integer here. -/
structure Instance (α : Type*) where
  injectMu : Bool
  injectQueue : List α
  pending : ℤ
  shutdown : Bool
  numWorkers : ℕ
  size : ℕ
  deque : ℕ → Option (List α)
  run : RunPc

structure State (κ ι α : Type*) where
  inst : κ → Instance α
  worker : κ × ℕ → WorkerPc α
  call : Thread κ ι → Option (κ × SubmitPc α)
  tlWorkerId : Thread κ ι → ℤ

/-- The thread that moves; `rng` is what the worker's generator returns in this step. -/
inductive Action (κ ι α : Type*)
  | submit (t : Thread κ ι) (k : κ) (task : α)
  | call (t : Thread κ ι)
  | worker (k : κ) (i : ℕ) (rng : ℕ)
  | finish (k : κ) (i : ℕ)
  | run (k : κ) (numWorkers : ℕ)
  | runner (k : κ)

variable {κ ι α : Type*}

def WorkerPc.isRunning : WorkerPc α → Bool
  | .running _ => true
  | _ => false

def WorkerPc.isExited : WorkerPc α → Bool
  | .exited => true
  | _ => false

def Instance.setDeque (m : Instance α) (i : ℕ) (l : List α) : Instance α :=
  { m with deque := Function.update m.deque i (some l) }

/-- The next access of a `submit` by a thread whose `tl_worker_id_` is `tl`. -/
def submitStep (m : Instance α) (tl : ℤ) : SubmitPc α → Option (Instance α × Option (SubmitPc α))
  | .check task =>
    if 0 ≤ tl ∧ tl < asInt m.size then some (m, some (.addLocal tl task))
    else some (m, some (.lock task))
  | .addLocal wid task => some ({ m with pending := m.pending + 1 }, some (.pushLocal wid task))
  | .pushLocal wid task =>
    (m.deque wid.toNat).map fun l => (m.setDeque wid.toNat (l ++ [task]), none)
  | .lock task =>
    if m.injectMu then none else some ({ m with injectMu := true }, some (.addInject task))
  | .addInject task => some ({ m with pending := m.pending + 1 }, some (.pushInject task))
  | .pushInject task =>
    some ({ m with injectQueue := m.injectQueue ++ [task], injectMu := false }, none)

/-- The first victim of a sweep by worker `id` among `n` workers. -/
def sweepStart (n id rng : ℕ) : ℕ :=
  let start := rng % (n - 1)
  if start ≥ id then start + 1 else start

/-- The victim of one attempt of a sweep. -/
def victim (n id start attempt : ℕ) : ℕ :=
  let v := u32 (start + attempt) % n
  if v = id then u32 (v + 1) % n else v

def workerStep (m : Instance α) (id rng : ℕ) :
    WorkerPc α → Option (Instance α × WorkerPc α)
  | .start => some (m, .pop)
  | .pop => (m.deque id).map fun l =>
    match l.getLast? with
    | some task => (m.setDeque id l.dropLast, .running task)
    | none => (m, .checkPending)
  | .checkPending => some (m, if m.pending = 0 then .exited else .checkShutdown)
  | .checkShutdown => some (m, if m.shutdown then .exited else .pick)
  | .pick =>
    some (m, if m.size > 1 then .steal (sweepStart (u32 m.size) id rng) 0 else .pop)
  | .steal start attempt =>
    if attempt < u32 m.size - 1 then
      let v := victim (u32 m.size) id start attempt
      (m.deque v).map fun l =>
        match l with
        | task :: rest => (m.setDeque v rest, .running task)
        | [] => (m, .steal start (attempt + 1))
    else some (m, .pop)
  | _ => none

/-- The accesses of `run` to the members; the launch and the join of a thread are in
`step`. -/
def runStep (m : Instance α) : RunPc → Option (Instance α)
  | .clear => some { m with size := 0, deque := fun _ => none, run := .resize }
  | .resize => some { m with size := m.numWorkers, run := .build 0 }
  | .build i =>
    if i < m.numWorkers then some { m.setDeque i [] with run := .build (i + 1) }
    else some { m with run := .reset }
  | .reset => some { m with shutdown := false, run := .lockDrain }
  | .lockDrain => if m.injectMu then none else some { m with injectMu := true, run := .drain }
  | .drain =>
    match m.injectQueue with
    | task :: rest =>
      (m.deque 0).map fun l => { m.setDeque 0 (l ++ [task]) with injectQueue := rest }
    | [] => some { m with injectMu := false, run := .launch 0 }
  | .launch i => if i < m.numWorkers then none else some { m with run := .wait }
  | .wait => if m.pending > 0 then some m else some { m with run := .setShutdown }
  | .setShutdown => some { m with shutdown := true, run := .join 0 }
  | .join i => if i < m.numWorkers then none else some { m with run := .clearEnd }
  | .clearEnd => some { m with size := 0, deque := fun _ => none, run := .idle }
  | .idle => none

section Setters
variable (s : State κ ι α)

section Instances
variable [DecidableEq κ] (k : κ) (m : Instance α) (i : ℕ) (pc : WorkerPc α)

def State.setInst : State κ ι α := { s with inst := Function.update s.inst k m }

def State.setWorker : State κ ι α := { s with worker := Function.update s.worker (k, i) pc }

@[simp] theorem setInst_inst : (s.setInst k m).inst = Function.update s.inst k m := rfl
@[simp] theorem setInst_worker : (s.setInst k m).worker = s.worker := rfl
@[simp] theorem setInst_call : (s.setInst k m).call = s.call := rfl
@[simp] theorem setInst_tlWorkerId : (s.setInst k m).tlWorkerId = s.tlWorkerId := rfl

@[simp] theorem setWorker_inst : (s.setWorker k i pc).inst = s.inst := rfl
@[simp] theorem setWorker_worker : (s.setWorker k i pc).worker = Function.update s.worker (k, i) pc := rfl
@[simp] theorem setWorker_call : (s.setWorker k i pc).call = s.call := rfl
@[simp] theorem setWorker_tlWorkerId : (s.setWorker k i pc).tlWorkerId = s.tlWorkerId := rfl

end Instances

section Threads
variable [DecidableEq κ] [DecidableEq ι] (t : Thread κ ι) (c : Option (κ × SubmitPc α)) (wid : ℤ)

def State.setCall : State κ ι α := { s with call := Function.update s.call t c }

def State.setId : State κ ι α := { s with tlWorkerId := Function.update s.tlWorkerId t wid }

@[simp] theorem setCall_inst : (s.setCall t c).inst = s.inst := rfl
@[simp] theorem setCall_worker : (s.setCall t c).worker = s.worker := rfl
@[simp] theorem setCall_call : (s.setCall t c).call = Function.update s.call t c := rfl
@[simp] theorem setCall_tlWorkerId : (s.setCall t c).tlWorkerId = s.tlWorkerId := rfl

@[simp] theorem setId_inst : (s.setId t wid).inst = s.inst := rfl
@[simp] theorem setId_worker : (s.setId t wid).worker = s.worker := rfl
@[simp] theorem setId_call : (s.setId t wid).call = s.call := rfl
@[simp] theorem setId_tlWorkerId : (s.setId t wid).tlWorkerId = Function.update s.tlWorkerId t wid := rfl

end Threads
end Setters

/-- Only a thread outside or a worker in the middle of a task calls `submit`. -/
def canSubmit (s : State κ ι α) : Thread κ ι → Bool
  | .worker k i => (s.worker (k, i)).isRunning && (s.call (.worker k i)).isNone
  | .outside o => (s.call (.outside o)).isNone

variable [DecidableEq κ] [DecidableEq ι]

def step (s : State κ ι α) : Action κ ι α → Option (State κ ι α)
  | .submit t k task =>
    if canSubmit s t then some (s.setCall t (some (k, .check task))) else none
  | .call t =>
    match s.call t with
    | none => none
    | some (k, pc) => (submitStep (s.inst k) (s.tlWorkerId t) pc).map fun r =>
        (s.setInst k r.1).setCall t (r.2.map fun pc' => (k, pc'))
  | .worker k i rng =>
    (workerStep (s.inst k) i rng (s.worker (k, i))).map fun r =>
      let s' := (s.setInst k r.1).setWorker k i r.2
      match s.worker (k, i) with
      | .start => s'.setId (.worker k i) (asInt i)
      | _ => s'
  | .finish k i =>
    match s.worker (k, i), s.call (.worker k i) with
    | .running _, none =>
      let m := s.inst k
      some ((s.setInst k { m with pending := m.pending - 1 }).setWorker k i
        (if m.pending = 1 then .exited else .pop))
    | _, _ => none
  | .run k n =>
    let m := s.inst k
    match m.run with
    | .idle => if n < 2 ^ 32 then some (s.setInst k { m with numWorkers := n, run := .clear })
      else none
    | _ => none
  | .runner k =>
    let m := s.inst k
    match m.run with
    | .launch i =>
      if i < m.numWorkers then
        some (((s.setInst k { m with run := .launch (i + 1) }).setWorker k i .start).setId
          (.worker k i) (-1))
      else (runStep m (.launch i)).map (s.setInst k)
    | .join i =>
      if i < m.numWorkers then
        if (s.worker (k, i)).isExited then
          some ((s.setInst k { m with run := .join (i + 1) }).setWorker k i .off)
        else none
      else (runStep m (.join i)).map (s.setInst k)
    | pc => (runStep m pc).map (s.setInst k)

def initInstance : Instance α :=
  { injectMu := false, injectQueue := [], pending := 0, shutdown := false, numWorkers := 0
    size := 0, deque := fun _ => none, run := .idle }

def machine (κ ι α : Type*) [DecidableEq κ] [DecidableEq ι] :
    Machine (State κ ι α) (Action κ ι α) where
  init :=
    { inst := fun _ => initInstance
      worker := fun _ => .off
      call := fun _ => none
      tlWorkerId := fun _ => -1 }
  step := step

/-- The task that a `submit` to instance `k` counts in by this step. -/
def submitted (k : κ) (s : State κ ι α) : Action κ ι α → Option α
  | .call t =>
    match s.call t with
    | some (k', .addLocal _ task) | some (k', .addInject task) =>
      if k' = k then some task else none
    | _ => none
  | _ => none

/-- The task whose run on a worker of instance `k` ends, and is counted off, by this step. -/
def completed (k : κ) (s : State κ ι α) : Action κ ι α → Option α
  | .finish k' i =>
    if k' = k then
      match s.worker (k, i) with
      | .running task => some task
      | _ => none
    else none
  | _ => none

end TaskScheduler.WorkStealing
