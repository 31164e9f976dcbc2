import TaskScheduler.LockFreeExecutor
import TaskScheduler.MutexExecutor
import TaskScheduler.StealingExecutor

/-!
# The recursive workload

`setup_recursive` submits one task, and each task of `recursive_spawn` counts itself in
`g_task_count` and spawns two of the next smaller depth. The number of tasks that the setup
announces is the number that have run when `run` returns.
-/
namespace TaskScheduler.Recursive
open Transition TaskPool

/-- The position of a task inside `recursive_spawn(sched, depth)`. -/
inductive SpawnPc
  | count (depth : ℕ)
  | first (depth : ℕ)
  | second (depth : ℕ)
  | returned
deriving DecidableEq

/-- `root` is the depth with which the setup still has to submit the first task. -/
structure Shared where
  taskCount : ℕ
  root : Option ℕ

/-- The call of `submit` in `setup_recursive`. -/
def setupRecursive (m : Shared) : Option (Shared × Option SpawnPc) :=
  m.root.map fun treeDepth => ({ m with root := none }, some (.count treeDepth))

/-- What `setup_recursive` returns. -/
def numTasks (treeDepth : ℕ) : ℕ := 1 <<< (treeDepth + 1) - 1

def recursiveSpawn (m : Shared) : SpawnPc → Option (Shared × SpawnPc × Option SpawnPc)
  | .count depth =>
    some ({ m with taskCount := LockFree.uint64 (m.taskCount + 1) },
      if depth = 0 then .returned else .first depth, none)
  | .first depth => some (m, .second depth, some (.count (depth - 1)))
  | .second depth => some (m, .returned, some (.count (depth - 1)))
  | .returned => none

def workload (treeDepth : ℕ) : Program Shared SpawnPc where
  init := { taskCount := 0, root := some treeDepth }
  main := setupRecursive
  step := recursiveSpawn

theorem numTasks_eq (d : ℕ) : numTasks d = if d = 0 then 1 else 2 * numTasks (d - 1) + 1 := by
  simp only [numTasks, Nat.one_shiftLeft]
  cases d with
  | zero => rfl
  | succ d =>
    have hpos : 0 < 2 ^ (d + 1) := by positivity
    rw [if_neg (Nat.succ_ne_zero d), Nat.add_sub_cancel, pow_succ]
    omega

/-- The tasks that the task and its descendants have yet to spawn. -/
def SpawnPc.toSpawn : SpawnPc → ℕ
  | .count depth => if depth = 0 then 0 else 2 * numTasks (depth - 1)
  | .first depth => 2 * numTasks (depth - 1)
  | .second depth => numTasks (depth - 1)
  | .returned => 0

/-- Whether the task has counted itself. -/
def SpawnPc.counted : SpawnPc → ℕ
  | .count _ => 0
  | _ => 1

theorem toSpawn_count (d : ℕ) : (SpawnPc.count d).toSpawn + 1 = numTasks d := by
  rw [numTasks_eq, SpawnPc.toSpawn]
  split_ifs <;> rfl

/-- The tasks that the setup has yet to start, all in all. -/
def Shared.toStart (m : Shared) : ℕ := m.root.elim 0 numTasks

variable {m : Shared} {n treeDepth : ℕ} {p : Pool Shared SpawnPc}

theorem setup_started {r : Shared × Option SpawnPc} (h : setupRecursive m = some r) :
    r.1.toStart + brought (fun t => t.toSpawn + 1) r.2 = m.toStart := by
  obtain ⟨d, hd, rfl⟩ := Option.map_eq_some_iff.mp h
  simp [Shared.toStart, hd, brought, toSpawn_count]

theorem spawn_started {t : SpawnPc} {r : Shared × SpawnPc × Option SpawnPc}
    (h : recursiveSpawn m t = some r) :
    r.1.toStart + (r.2.1.toSpawn + 1 + brought (fun t => t.toSpawn + 1) r.2.2) =
      m.toStart + (t.toSpawn + 1) := by
  cases t with
  | count d =>
    cases h
    by_cases hd : d = 0 <;> simp [hd, SpawnPc.toSpawn, brought, Shared.toStart]
  | first d =>
    cases h
    change m.toStart + ((SpawnPc.second d).toSpawn + 1 + ((SpawnPc.count (d - 1)).toSpawn + 1)) = _
    rw [toSpawn_count]
    simp only [SpawnPc.toSpawn]
    omega
  | second d =>
    cases h
    change m.toStart + (SpawnPc.returned.toSpawn + 1 + ((SpawnPc.count (d - 1)).toSpawn + 1)) = _
    rw [toSpawn_count]
    simp only [SpawnPc.toSpawn]
    omega
  | returned => cases h

theorem spawn_counted {t : SpawnPc} {r : Shared × SpawnPc × Option SpawnPc}
    (h : recursiveSpawn m t = some r) :
    -(r.1.taskCount : ZMod (2 ^ 64)) +
        (r.2.1.counted + brought (fun t => (t.counted : ZMod (2 ^ 64))) r.2.2) =
      -(m.taskCount : ZMod (2 ^ 64)) + t.counted := by
  cases t with
  | count d =>
    cases h
    have hone : (if d = 0 then SpawnPc.returned else .first d).counted = 1 := by
      split_ifs <;> rfl
    change -((LockFree.uint64 (m.taskCount + 1) : ℕ) : ZMod (2 ^ 64)) +
      (((if d = 0 then SpawnPc.returned else .first d).counted : ℕ) + 0) =
        -(m.taskCount : ZMod (2 ^ 64)) + ((0 : ℕ) : ZMod (2 ^ 64))
    rw [hone, LockFree.uint64, ZMod.natCast_mod]
    push_cast
    ring
  | first d | second d =>
    cases h
    simp [brought, SpawnPc.counted]
  | returned => cases h

/-- The setup has nothing left to do, whatever the tasks do. -/
theorem setup_over {t : SpawnPc} {r : Shared × SpawnPc × Option SpawnPc}
    (hm : setupRecursive m = none) (h : recursiveSpawn m t = some r) :
    setupRecursive r.1 = none := by
  cases t with
  | returned => cases h
  | count | first | second =>
    cases h
    exact Option.map_eq_none_iff.mpr (Option.map_eq_none_iff.mp hm)

theorem spawn_over {t : SpawnPc} (m' : Shared) (h : recursiveSpawn m t = none) :
    recursiveSpawn m' t = none := by
  cases t with
  | returned => rfl
  | count | first | second => cases h

section Reachable
variable (h : Reachable (TaskPool.machine (workload treeDepth) n) p)
include h

/-- Every task is running, has run, or is still to be spawned. -/
theorem spawned_eq : p.mem.toStart + (p.tasks.map fun e => e.2.toSpawn + 1).sum =
    numTasks treeDepth :=
  conserved (c := Shared.toStart) (w := fun t => t.toSpawn + 1) (fun _ _ => setup_started)
    (fun _ _ _ => spawn_started) h

theorem length_le : p.tasks.length ≤ numTasks treeDepth := by
  have hle : p.tasks.length ≤ (p.tasks.map fun e => e.2.toSpawn + 1).sum := by
    simp
  have heq := spawned_eq h
  omega

theorem count_eq : (p.mem.taskCount : ZMod (2 ^ 64)) =
    (p.tasks.map fun e => (e.2.counted : ZMod (2 ^ 64))).sum := by
  have hsum := conserved (c := fun m : Shared => -(m.taskCount : ZMod (2 ^ 64)))
    (w := fun t => (t.counted : ZMod (2 ^ 64))) ?_ (fun _ _ _ => spawn_counted) h
  · exact (neg_add_eq_zero.mp (hsum.trans (by simp [workload])))
  · intro m r hm
    obtain ⟨d, -, rfl⟩ := Option.map_eq_some_iff.mp hm
    simp [brought, SpawnPc.counted]

theorem taskCount_lt : p.mem.taskCount < 2 ^ 64 := by
  refine Reachable.invariant (I := fun p : Pool Shared SpawnPc => p.mem.taskCount < 2 ^ 64)
    (by simp [TaskPool.machine, workload]) (fun u a v hu hs => ?_) h
  cases TaskPool.step_effect hs with
  | main _ hm =>
    obtain ⟨d, -, rfl⟩ := Option.map_eq_some_iff.mp hm
    exact hu
  | @task j t r _ hr =>
    cases t with
    | count d =>
      cases hr
      exact Nat.mod_lt _ (by norm_num)
    | first d | second d =>
      cases hr
      exact hu
    | returned => cases hr
  | run | start | done | ret => exact hu

/-- When the driver returns, every task has run to its end. -/
theorem returned_of_after (hp : p.phase = .after) :
    p.mem.root = none ∧ ∀ e ∈ p.tasks, e.2 = .returned := by
  obtain ⟨hcode, hdone⟩ := ended (fun _ _ _ => setup_over) (fun _ m' _ => spawn_over m') h
  refine ⟨Option.map_eq_none_iff.mp (hcode (by simp [hp])), fun e he => ?_⟩
  obtain ⟨x, t⟩ := e
  obtain rfl : x = .done := done_of_after h hp _ he
  have hend : recursiveSpawn p.mem t = none := hdone t he p.mem
  cases t with
  | returned => rfl
  | count | first | second => cases hend

end Reachable

/-- The tasks that are there, and what `g_task_count` says when `run` has returned. -/
structure Counted (treeDepth : ℕ) (p : Pool Shared SpawnPc) : Prop where
  le : p.tasks.length ≤ numTasks treeDepth
  all : p.phase = .after → p.tasks.length = numTasks treeDepth
  count : p.phase = .after → p.mem.taskCount = numTasks treeDepth
  finished : p.phase = .after → ∀ e ∈ p.tasks, e.1 = .done ∧ e.2 = .returned

theorem numTasks_lt (hd : treeDepth < 63) : numTasks treeDepth < 2 ^ 63 := by
  have hle : 2 ^ (treeDepth + 1) ≤ 2 ^ 63 := Nat.pow_le_pow_right (by norm_num) hd
  have hpos : 0 < 2 ^ (treeDepth + 1) := by positivity
  rw [numTasks, Nat.one_shiftLeft]
  omega

theorem counted_of_reachable (hd : treeDepth < 63)
    (h : Reachable (TaskPool.machine (workload treeDepth) n) p) : Counted treeDepth p := by
  have hall : p.phase = .after → p.tasks.length = numTasks treeDepth := fun hp => by
    obtain ⟨hroot, hret⟩ := returned_of_after h hp
    have hone : (p.tasks.map fun e => e.2.toSpawn + 1) = p.tasks.map fun _ => 1 :=
      List.map_congr_left fun e he => by rw [hret e he]; rfl
    have heq := spawned_eq h
    rw [Shared.toStart, hroot, hone] at heq
    simpa using heq
  refine ⟨length_le h, hall, fun hp => ?_, fun hp e he =>
    ⟨done_of_after h hp e he, (returned_of_after h hp).2 e he⟩⟩
  have hone : (p.tasks.map fun e => (e.2.counted : ZMod (2 ^ 64))) = p.tasks.map fun _ => 1 :=
    List.map_congr_left fun e he => by
      rw [(returned_of_after h hp).2 e he]
      simp [SpawnPc.counted]
  have hcast : (p.mem.taskCount : ZMod (2 ^ 64)) = (p.tasks.length : ℕ) := by
    rw [count_eq h, hone]
    simp
  have hmod := (ZMod.natCast_eq_natCast_iff' _ _ _).mp hcast
  have hlt := (numTasks_lt hd).trans (by norm_num : 2 ^ 63 < 2 ^ 64)
  rwa [hall hp, Nat.mod_eq_of_lt (taskCount_lt h), Nat.mod_eq_of_lt hlt] at hmod

theorem counted_on {σ ℓ ω : Type*} [DecidableEq ω] {E : Executor.View σ ℓ ω ℕ} {crew : Finset ω}
    {fits : ℕ → Prop} (hl : E.Lawful crew fits) (hf : ∀ k ≤ numTasks treeDepth, fits k)
    (hd : treeDepth < 63) {tr : List ((σ × Pool Shared SpawnPc) × Executor.Choice ℓ ω)}
    {u : σ × Pool Shared SpawnPc} (h : Run (E.pooled (workload treeDepth)) tr u) :
    Counted treeDepth u.2 :=
  counted_of_reachable hd (hl.pooled (fun _ hq => hf _ (length_le hq)) h).2.reachable

/-- On each of the schedulers, with any number of workers, the recursive workload submits as many
tasks as `setup_recursive` announces, and when `run` returns each has run to its end and counted
itself once. -/
theorem recursion_counted {ω : Type*} [DecidableEq ω] [Fintype ω] (hd : treeDepth < 63) :
    (∀ n tr u, Run ((MutexQueue.executor n ℕ).pooled (workload treeDepth)) tr u →
        Counted treeDepth u.2) ∧
      (∀ n tr u, Run ((StealingDeques.executor n ℕ).pooled (workload treeDepth)) tr u →
        Counted treeDepth u.2) ∧
      ∀ (crew : List ω) (log2Ring : ℕ), 1 ≤ log2Ring → log2Ring ≤ 63 →
        ∀ tr u, Run ((LockFree.executor crew ℕ log2Ring).pooled (workload treeDepth)) tr u →
          Counted treeDepth u.2 := by
  refine ⟨fun n tr u h => ?_, fun n tr u h => ?_, fun crew log2Ring hlo hhi tr u h => ?_⟩
  · exact counted_on (MutexQueue.lawful n) (fun _ _ => trivial) hd h
  · exact counted_on (StealingDeques.lawful n) (fun _ _ => trivial) hd h
  · exact counted_on (LockFree.lawful hlo hhi crew) (fun _ hk => hk.trans_lt (numTasks_lt hd)) hd h

/-- A tree of depth one on one worker of `MutexQueueScheduler`: three tasks. -/
def treeSchedule : List (Executor.Choice (MutexQueue.Action Unit ℕ) ℕ) := List.flatten
  [[.own (.submit () 0)], List.replicate 3 (.own (.outside () (some 0))),
    [.own (.outside () none), .own (.run 1)], List.replicate 3 (.own .runner),
    List.replicate 3 (.own (.worker 0 none)), [.task 0, .own (.spawn 0 1)],
    List.replicate 4 (.own (.worker 0 none)), [.own (.spawn 0 2)],
    List.replicate 4 (.own (.worker 0 none)), [.own (.finish 0)],
    List.replicate 4 (.own (.worker 0 none)), [.task 0, .own (.finish 0)],
    List.replicate 4 (.own (.worker 0 none)), [.task 0, .own (.finish 0)],
    List.replicate 5 (.own (.worker 0 none)), List.replicate 5 (.own .runner),
    List.replicate 3 (.own (.worker 0 none)), List.replicate 2 (.own .runner)]

/-- The same on one worker of `WorkStealingScheduler`. -/
def stealingSchedule : List (Executor.Choice (StealingDeques.Action Unit ℕ) ℕ) := List.flatten
  [[.own (.submit (.outside ()) 0)], List.replicate 4 (.own (.call (.outside ()))),
    [.own (.run 1)], List.replicate 15 (.own .runner), List.replicate 9 (.own (.worker 0 0)),
    [.task 0, .own (.submit (.worker 0) 1)], List.replicate 8 (.own (.call (.worker 0))),
    [.own (.submit (.worker 0) 2)], List.replicate 8 (.own (.call (.worker 0))),
    [.own (.finish 0)], List.replicate 6 (.own (.worker 0 0)), [.task 0, .own (.finish 0)],
    List.replicate 8 (.own (.worker 0 0)), [.task 0, .own (.finish 0)],
    List.replicate 5 (.own .runner)]

/-- The same on one worker of `LockFreeQueueScheduler` with a ring of two slots. -/
def ringSchedule : List (Executor.Choice (LockFree.Action Unit Unit ℕ) Unit) := List.flatten
  [[.own (.submit () 0)], List.replicate 4 (.own (.access (.outside ()) false)),
    [.own (.run () [()])], List.replicate 2 (.own .runner),
    List.replicate 5 (.own (.access (.worker ()) false)),
    [.own (.worker ()), .task (), .own (.spawn () 1)],
    List.replicate 4 (.own (.access (.worker ()) false)), [.own (.worker ()), .own (.spawn () 2)],
    List.replicate 4 (.own (.access (.worker ()) false)),
    [.own (.worker ()), .own (.finish ()), .own (.worker ())],
    List.replicate 5 (.own (.access (.worker ()) false)),
    [.own (.worker ()), .task (), .own (.finish ()), .own (.worker ())],
    List.replicate 5 (.own (.access (.worker ()) false)),
    [.own (.worker ()), .task (), .own (.finish ()), .own (.worker ())],
    List.replicate 2 (.own .runner), List.replicate 2 (.own (.access (.worker ()) false)),
    List.replicate 2 (.own (.worker ())), List.replicate 2 (.own .runner)]

theorem recursion_counted_tree :
    (∃ u, exec ((MutexQueue.executor 1 ℕ).pooled (workload 1))
        ((MutexQueue.executor 1 ℕ).pooled (workload 1)).init treeSchedule = some u ∧
      u.2.phase = .after ∧ Counted 1 u.2) ∧
    (∃ u, exec ((StealingDeques.executor 1 ℕ).pooled (workload 1))
        ((StealingDeques.executor 1 ℕ).pooled (workload 1)).init stealingSchedule = some u ∧
      u.2.phase = .after ∧ Counted 1 u.2) ∧
    ∃ u, exec ((LockFree.executor [()] ℕ 1).pooled (workload 1))
        ((LockFree.executor [()] ℕ 1).pooled (workload 1)).init ringSchedule = some u ∧
      u.2.phase = .after ∧ Counted 1 u.2 := by
  have hmutex : (exec ((MutexQueue.executor 1 ℕ).pooled (workload 1))
      ((MutexQueue.executor 1 ℕ).pooled (workload 1)).init treeSchedule).any fun u =>
        decide (u.2.phase = .after) := by decide +kernel
  have hsteal : (exec ((StealingDeques.executor 1 ℕ).pooled (workload 1))
      ((StealingDeques.executor 1 ℕ).pooled (workload 1)).init stealingSchedule).any fun u =>
        decide (u.2.phase = .after) := by decide +kernel
  have hring : (exec ((LockFree.executor [()] ℕ 1).pooled (workload 1))
      ((LockFree.executor [()] ℕ 1).pooled (workload 1)).init ringSchedule).any fun u =>
        decide (u.2.phase = .after) := by decide +kernel
  obtain ⟨u, hu, hend⟩ := (Option.any_eq_true _ _).mp hmutex
  obtain ⟨v, hv, hend'⟩ := (Option.any_eq_true _ _).mp hsteal
  obtain ⟨w, hw, hend''⟩ := (Option.any_eq_true _ _).mp hring
  obtain ⟨hall, hall', hall''⟩ := recursion_counted (ω := Unit) (by norm_num : 1 < 63)
  exact ⟨⟨u, hu, of_decide_eq_true hend, hall 1 _ u (exec_steps hu)⟩,
    ⟨v, hv, of_decide_eq_true hend', hall' 1 _ v (exec_steps hv)⟩,
    ⟨w, hw, of_decide_eq_true hend'', hall'' [()] 1 le_rfl (by decide) _ w (exec_steps hw)⟩⟩

end TaskScheduler.Recursive
