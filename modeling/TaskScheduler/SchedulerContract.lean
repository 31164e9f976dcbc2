import TaskScheduler.LockFreeExecutor
import TaskScheduler.MutexExecutor
import TaskScheduler.StealingExecutor

/-!
# The contract of `IScheduler`

What the three schedulers promise their callers alike, whatever their queues are.
-/
namespace TaskScheduler
open Transition Executor

/-- Under a driver that submits and then calls `run`, with tasks that submit more, each scheduler
is a bag: a task begins on a worker of the crew, once for each time it was submitted, and `run`
returns when every task submitted has been run to its end. The lock-free queue is one as long as
fewer than `2^63` tasks are submitted. -/
theorem schedulers_refine_bag (α : Type*) {ω : Type*} [DecidableEq ω] [Fintype ω] :
    (∀ n tr s, Run (MutexQueue.executor n α).machine tr s →
        ∃ tr', Run (Bag.machine (Finset.range n)) tr' ((MutexQueue.executor n α).bag tr s) ∧
          log (fun _ e => some e) tr' = log (MutexQueue.executor n α).event tr) ∧
      (∀ n tr s, Run (StealingDeques.executor n α).machine tr s →
        ∃ tr', Run (Bag.machine (Finset.range n)) tr' ((StealingDeques.executor n α).bag tr s) ∧
          log (fun _ e => some e) tr' = log (StealingDeques.executor n α).event tr) ∧
      ∀ (crew : List ω) (log2Ring : ℕ), 1 ≤ log2Ring → log2Ring ≤ 63 →
        ∀ tr s, Run (LockFree.executor crew α log2Ring).machine tr s →
          (log (LockFree.executor crew α log2Ring).called tr).length < 2 ^ 63 →
          ∃ tr', Run (Bag.machine crew.toFinset) tr'
              ((LockFree.executor crew α log2Ring).bag tr s) ∧
            log (fun _ e => some e) tr' = log (LockFree.executor crew α log2Ring).event tr := by
  refine ⟨fun n tr s h => ?_, fun n tr s h => ?_, fun crew log2Ring hlo hhi tr s h hfit => ?_⟩
  · exact (MutexQueue.lawful n).bag_run h fun _ _ => trivial
  · exact (StealingDeques.lawful n).bag_run h fun _ _ => trivial
  · exact (LockFree.lawful hlo hhi crew).bag_run h fun m hm => hm.trans_lt hfit

/-- A task and one that it submits, on one worker of `LockFreeQueueScheduler` with a ring of two
slots. -/
def spawnSchedule : List (LockFree.Action Unit Unit ℕ) := List.flatten
  [[.submit () 0], List.replicate 4 (.access (.outside ()) false), [.run () [()]],
    List.replicate 2 .runner, List.replicate 5 (.access (.worker ()) false),
    [.worker (), .spawn () 1], List.replicate 4 (.access (.worker ()) false),
    [.worker (), .finish (), .worker ()], List.replicate 5 (.access (.worker ()) false),
    [.worker (), .finish (), .worker ()], List.replicate 2 .runner,
    List.replicate 2 (.access (.worker ()) false), List.replicate 2 (.worker ()),
    List.replicate 2 .runner]

/-- The run of that schedule. -/
def spawnRun : List ((LockFree.State Unit Unit ℕ × TaskPool.Phase) × LockFree.Action Unit Unit ℕ) :=
  record (LockFree.executor [()] ℕ 1).machine (LockFree.executor [()] ℕ 1).machine.init
    spawnSchedule

theorem schedulers_refine_bag_spawn : ∃ s tr',
    Run (LockFree.executor [()] ℕ 1).machine spawnRun s ∧
    Run (Bag.machine [()].toFinset) tr' ((LockFree.executor [()] ℕ 1).bag spawnRun s) ∧
    log (fun _ e => some e) tr' =
      [.submit 0, .run, .start () 0, .spawn () 1, .finish (), .start () 1, .finish (), .ret] ∧
    ((LockFree.executor [()] ℕ 1).bag spawnRun s).phase = .after := by
  have hen : (exec (LockFree.executor [()] ℕ 1).machine
      (LockFree.executor [()] ℕ 1).machine.init spawnSchedule).any
        fun s => decide (s.2 = .after) := by decide +kernel
  obtain ⟨s, hs, hret⟩ := (Option.any_eq_true _ _).mp hen
  have hrun : Run (LockFree.executor [()] ℕ 1).machine spawnRun s := exec_steps hs
  obtain ⟨tr', hbag, hlog⟩ := (schedulers_refine_bag ℕ).2.2 [()] 1 le_rfl (by decide) spawnRun s
    hrun (by decide +kernel)
  exact ⟨s, tr', hrun, hbag, hlog.trans (by rfl), of_decide_eq_true hret⟩

end TaskScheduler
