import TaskScheduler.Transition

/-!
# TaskGraph

The build phase (`node`, `depends_on`) and `execute` on a scheduler that begins running
tasks only inside `run` and runs every submitted task once. Nodes are named by their
position in `nodes_`; counters are 32-bit.
-/
namespace TaskScheduler.Dag
open Transition

/-- The value of an `int32_t` after an operation with this exact result. -/
def int32 (x : ℤ) : ℤ := x.bmod (2 ^ 32)

structure Graph where
  size : ℕ
  successors : ℕ → List ℕ
  depsRemaining : ℕ → ℤ

def Graph.empty : Graph := { size := 0, successors := fun _ => [], depsRemaining := fun _ => 0 }

def Graph.node (g : Graph) : Graph := { g with size := g.size + 1 }

/-- `n.depends_on(pred)`. -/
def Graph.dependsOn (g : Graph) (n pred : ℕ) : Graph :=
  { g with
    successors := Function.update g.successors pred (g.successors pred ++ [n])
    depsRemaining := Function.update g.depsRemaining n (int32 (g.depsRemaining n + 1)) }

/-- `n.depends_on(p1, p2, ...)`. -/
def Graph.dependsOnAll (g : Graph) (n : ℕ) : List ℕ → Graph
  | [] => g
  | p :: rest => (g.dependsOn n p).dependsOnAll n rest

inductive BuildOp
  | node
  | dependsOn (n : ℕ) (preds : List ℕ)

/-- One call of the build phase; the nodes it names are nodes of the graph. -/
def Graph.apply (g : Graph) : BuildOp → Option Graph
  | .node => some g.node
  | .dependsOn n preds =>
    if n < g.size ∧ ∀ p ∈ preds, p < g.size then some (g.dependsOnAll n preds) else none

def build (ops : List BuildOp) : Option Graph := ops.foldlM Graph.apply Graph.empty

/-- The task of a node: `fn` runs the user's code, `succ k` decrements the counter of the
successor at position `k`, `submit k` submits that successor. -/
inductive TaskPc
  | queued
  | fn
  | succ (k : ℕ)
  | submit (k : ℕ)
  | finish
  | done
deriving DecidableEq

structure Task where
  node : ℕ
  pc : TaskPc
deriving DecidableEq

inductive Phase
  | seeding (i : ℕ)
  | running
  | returned
deriving DecidableEq

/-- `execute` in progress; `tasks` lists the submitted tasks in the order of submission. -/
structure State where
  depsRemaining : ℕ → ℤ
  remainingNodes : ℤ
  tasks : List Task
  phase : Phase

inductive Action
  | seed
  | start (j : ℕ)
  | task (j : ℕ)
  | ret

/-- A worker is busy with the task. -/
def TaskPc.isBusy : TaskPc → Bool
  | .queued | .done => false
  | _ => true

def submitNode (s : State) (n : ℕ) : State := { s with tasks := s.tasks ++ [⟨n, .queued⟩] }

def State.setPc (s : State) (j : ℕ) (t : Task) (pc : TaskPc) : State :=
  { s with tasks := s.tasks.set j { t with pc := pc } }

/-- The next access of the task `t`, which is the `j`-th one submitted. -/
def taskStep (g : Graph) (s : State) (j : ℕ) (t : Task) : Option State :=
  match t.pc with
  | .fn => some (s.setPc j t (.succ 0))
  | .succ k =>
    match (g.successors t.node)[k]? with
    | some v =>
      let prev := s.depsRemaining v
      let s' := { s with depsRemaining := Function.update s.depsRemaining v (int32 (prev - 1)) }
      some (s'.setPc j t (if prev = 1 then .submit k else .succ (k + 1)))
    | none => some (s.setPc j t .finish)
  | .submit k =>
    (g.successors t.node)[k]?.map fun v => submitNode (s.setPc j t (.succ (k + 1))) v
  | .finish =>
    some ({ s with remainingNodes := s.remainingNodes - 1 }.setPc j t .done)
  | _ => none

/-- One step of `execute`, of the scheduler with `numWorkers` workers, or of a task. -/
def step (g : Graph) (numWorkers : ℕ) (s : State) : Action → Option State
  | .seed =>
    match s.phase with
    | .seeding i =>
      if i < g.size then
        let s' := { s with phase := .seeding (i + 1) }
        some (if s.depsRemaining i = 0 then submitNode s' i else s')
      else some { s with phase := .running }
    | _ => none
  | .start j =>
    match s.phase, s.tasks[j]? with
    | .running, some t =>
      if t.pc = .queued ∧ s.tasks.countP (·.pc.isBusy) < numWorkers then
        some (s.setPc j t .fn)
      else none
    | _, _ => none
  | .task j => s.tasks[j]?.bind (taskStep g s j)
  | .ret =>
    if s.phase = .running ∧ ∀ t ∈ s.tasks, t.pc = .done then some { s with phase := .returned }
    else none

def machine (g : Graph) (numWorkers : ℕ) : Machine State Action where
  init :=
    { depsRemaining := g.depsRemaining
      remainingNodes := g.size
      tasks := []
      phase := .seeding 0 }
  step := step g numWorkers

end TaskScheduler.Dag
