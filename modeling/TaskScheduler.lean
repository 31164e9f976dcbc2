import TaskScheduler.DequeRefinement
import TaskScheduler.MutexCompletion
import TaskScheduler.StealingInjection
import TaskScheduler.RingHidden
import TaskScheduler.RingRetries
import TaskScheduler.LockFreeBlocking
import TaskScheduler.LockFreeCompletion
import TaskScheduler.StealingOwnership
import TaskScheduler.MutexFifo
import TaskScheduler.MutexWakeup
import TaskScheduler.StealingSweep
import TaskScheduler.DagRoots
import TaskScheduler.DequeGrowth
import TaskScheduler.DequeFailures
import TaskScheduler.SubmitFailures
import TaskScheduler.ExecutionOrder
import TaskScheduler.Executor
import TaskScheduler.DequeDestruction
import TaskScheduler.StealingLifetime
import TaskScheduler.MutexExecutor
import TaskScheduler.LockFreeExecutor
import TaskScheduler.StealingExecutor
import TaskScheduler.DagExecution
import TaskScheduler.SchedulerContract
import TaskScheduler.RecursiveSpawn
