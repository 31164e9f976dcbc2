import TaskScheduler.LockFreeOrder
import TaskScheduler.MutexOrder
import TaskScheduler.StealingOrder

/-!
# The order in which one worker executes a spawn forest

The two queues go through the forest level by level, the deque goes through it depth first.
-/
namespace TaskScheduler
open Transition SpawnForest
open SpawnTree (breadthFirst depthFirstAll)

variable {β : Type*}

/-- With one worker, MutexQueueScheduler and LockFreeQueueScheduler execute the tasks of a forest
in breadth-first order, and WorkStealingScheduler executes them in depth-first pre-order with the
last root and the last child first: in every run the tasks that have begun are the first ones of
that order, and they are all of them when `run` has returned. In the ring no `enqueue` waits for
a slot in vain while at most `kRingSize` of the tasks submitted have not begun. -/
theorem execution_order (roots : List (SpawnTree β)) :
    (∀ tr s, Run (MutexQueue.scheduled roots) tr s →
      log MutexQueue.executed tr <+: breadthFirst roots ∧
        (MutexQueue.Returned s → log MutexQueue.executed tr = breadthFirst roots)) ∧
    (∀ tr s, Run (LockFree.scheduled roots) tr s →
      log LockFree.executed tr <+: breadthFirst roots ∧
        (LockFree.Returned s → log LockFree.executed tr = breadthFirst roots) ∧
        ((log LockFree.entered tr).length ≤
            (log LockFree.executed tr).length + LockFree.kRingSize LockFree.kLog2Ring →
          ∀ t, ¬ LockFree.Waiting LockFree.kLog2Ring s.1 t)) ∧
    (∀ tr s, Run (StealingDeques.scheduled roots) tr s →
      log StealingDeques.executed tr <+: depthFirstAll roots ∧
        (StealingDeques.Returned s → log StealingDeques.executed tr = depthFirstAll roots)) := by
  refine ⟨fun tr s h => ?_, fun tr s h => ?_, fun tr s h => ?_⟩
  · have horder := MutexQueue.executed_order h
    refine ⟨⟨_, horder⟩, fun hr => ?_⟩
    rwa [MutexQueue.waiting_of_returned h hr, breadthFirst_nil, List.append_nil] at horder
  · obtain ⟨L, halone, horder, hlen⟩ := LockFree.executed_order h
    refine ⟨⟨_, horder⟩, fun hr => ?_, fun hle t ht => ?_⟩
    · rwa [halone.returned hr, breadthFirst_nil, List.append_nil] at horder
    · have hfull := halone.waiting ht
      omega
  · have horder := StealingDeques.executed_order h
    refine ⟨⟨_, horder⟩, fun hr => ?_⟩
    rwa [StealingDeques.waiting_of_returned h hr, SpawnTree.depthFirstAll, List.append_nil] at horder

/-- Two roots, the first with a child. -/
def family : List (SpawnTree ℕ) := [.node 0 [.node 1 []], .node 2 []]

def mutexSchedule : List (MutexQueue.Action Unit Unit) :=
  List.flatten [[.submit () ()], List.replicate 4 (.outside () none), [.submit () ()],
    List.replicate 4 (.outside () none), [.run 1], List.replicate 3 .runner,
    List.replicate 3 (.worker 0 none), [.spawn 0 ()], List.replicate 4 (.worker 0 none),
    [.finish 0], List.replicate 4 (.worker 0 none), [.finish 0],
    List.replicate 4 (.worker 0 none), [.finish 0], List.replicate 5 (.worker 0 none),
    List.replicate 5 .runner, List.replicate 3 (.worker 0 none), List.replicate 2 .runner]

def ringSchedule : List (LockFree.Action Unit Unit Unit) :=
  List.flatten [[.submit () ()], List.replicate 4 (.access (.outside ()) false), [.submit () ()],
    List.replicate 4 (.access (.outside ()) false), [.run () [()], .runner],
    List.replicate 5 (.access (.worker ()) false), [.worker (), .spawn () ()],
    List.replicate 4 (.access (.worker ()) false), [.worker (), .finish (), .worker ()],
    List.replicate 5 (.access (.worker ()) false), [.worker (), .finish (), .worker ()],
    List.replicate 5 (.access (.worker ()) false), [.worker (), .finish (), .worker ()],
    List.replicate 3 .runner, List.replicate 2 (.access (.worker ()) false),
    List.replicate 2 (.worker ()), List.replicate 2 .runner]

def dequeSchedule : List (StealingDeques.Action Unit Unit) :=
  List.flatten [[.submit (.outside ()) ()], List.replicate 4 (.call (.outside ())),
    [.submit (.outside ()) ()], List.replicate 4 (.call (.outside ())), [.run 1],
    List.replicate 20 .runner, List.replicate 7 (.worker 0 0), [.finish 0],
    List.replicate 8 (.worker 0 0), [.submit (.worker 0) ()], List.replicate 8 (.call (.worker 0)),
    [.finish 0], List.replicate 8 (.worker 0 0), [.finish 0], List.replicate 6 .runner]

/-- All three schedulers run the family to the end. -/
theorem execution_order_family :
    (∃ tr s, Run (MutexQueue.scheduled family) tr s ∧ MutexQueue.Returned s ∧
      (log MutexQueue.executed tr).map SpawnTree.label = [0, 2, 1]) ∧
    (∃ tr s, Run (LockFree.scheduled family) tr s ∧ LockFree.Returned s ∧
      (log LockFree.executed tr).map SpawnTree.label = [0, 2, 1]) ∧
    (∃ tr s, Run (StealingDeques.scheduled family) tr s ∧ StealingDeques.Returned s ∧
      (log StealingDeques.executed tr).map SpawnTree.label = [2, 0, 1]) := by
  refine ⟨?_, ?_, ?_⟩
  · have hen : (exec (MutexQueue.scheduled family) (MutexQueue.scheduled family).init
        mutexSchedule).any fun s => decide (s.2.called = true ∧ s.1.runner = .idle) := by decide
    obtain ⟨s, hs, hret⟩ := (Option.any_eq_true _ _).mp hen
    have hret' : s.2.called = true ∧ s.1.runner = .idle := of_decide_eq_true hret
    refine ⟨_, s, exec_steps hs, hret', ?_⟩
    rw [((execution_order family).1 _ s (exec_steps hs)).2 hret']
    decide
  · have hen : (exec (LockFree.scheduled family) (LockFree.scheduled family).init
        ringSchedule).any fun s => s.2.called && s.1.run.isIdle := by decide +kernel
    obtain ⟨s, hs, hret⟩ := (Option.any_eq_true _ _).mp hen
    have hret' : LockFree.Returned s := by
      obtain ⟨hcalled, hrun⟩ := (Bool.and_eq_true _ _).mp hret
      refine ⟨hcalled, ?_⟩
      cases hr : s.1.run <;> simp_all [LockFree.RunPc.isIdle]
    refine ⟨_, s, exec_steps hs, hret', ?_⟩
    rw [((execution_order family).2.1 _ s (exec_steps hs)).2.1 hret']
    decide
  · have hen : (exec (StealingDeques.scheduled family) (StealingDeques.scheduled family).init
        dequeSchedule).any fun s => decide (s.2.called = true ∧ s.1.run = .idle) := by decide +kernel
    obtain ⟨s, hs, hret⟩ := (Option.any_eq_true _ _).mp hen
    have hret' : s.2.called = true ∧ s.1.run = .idle := of_decide_eq_true hret
    refine ⟨_, s, exec_steps hs, hret', ?_⟩
    rw [((execution_order family).2.2 _ s (exec_steps hs)).2 hret']
    decide

end TaskScheduler
