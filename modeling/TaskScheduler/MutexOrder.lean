import TaskScheduler.Driven
import TaskScheduler.MutexFifo
import TaskScheduler.SpawnForest

/-!
# The order in which one worker of MutexQueueScheduler executes a forest

A thread submits the roots and calls `run(1)`; every task submits its children while it runs.
-/
namespace TaskScheduler.MutexQueue
open Transition SpawnForest
open SpawnTree (breadthFirst)

variable {β : Type*}

/-- The client of the scheduler: it fills in the tasks that are submitted, and calls `run` once,
with one worker, when the last `submit` has returned. -/
def drive (c : Client β) (s : State Unit (SpawnTree β)) :
    Action Unit Unit → Option (Action Unit (SpawnTree β) × Client β)
  | .submit _ _ => c.submit.map fun r => (.submit () r.1, r.2)
  | .outside _ wake => some (.outside () wake, c)
  | .spawn i _ => c.spawn.map fun r => (.spawn i r.1, r.2)
  | .finish i => c.finish.map fun c' => (.finish i, c')
  | .worker i wake => some (.worker i wake, c.start (taken s (.worker i wake)))
  | .run n =>
    if n = 1 ∧ (s.outside ()).isNone then c.call.map fun c' => (.run n, c') else none
  | .runner => some (.runner, c)
  | .spuriousWorker i => some (.spuriousWorker i, c)
  | .spuriousRunner => some (.spuriousRunner, c)

/-- The scheduler with its client. -/
def scheduled (roots : List (SpawnTree β)) :
    Machine (State Unit (SpawnTree β) × Client β) (Action Unit Unit) :=
  (machine Unit (SpawnTree β)).drive (Client.init roots) drive

/-- The task that begins with this step. -/
def executed (s : State Unit (SpawnTree β) × Client β) : Action Unit Unit → Option (SpawnTree β)
  | .worker i wake => taken s.1 (.worker i wake)
  | _ => none

/-- `run` has been called and has returned. -/
def Returned (s : State Unit (SpawnTree β) × Client β) : Prop :=
  s.2.called ∧ s.1.runner = .idle

def callWaiting {α : Type*} : Option (SubmitPc α) → List α
  | some (.lock task) | some (.add task) | some (.push task) => [task]
  | _ => []

@[simp] theorem callWaiting_none {α : Type*} :
    callWaiting (none : Option (SubmitPc α)) = [] := rfl

/-- The tasks that have not begun, in the order in which they get into `queue_`. -/
def waiting (s : State Unit (SpawnTree β) × Client β) : List (SpawnTree β) :=
  s.1.queue ++ callWaiting (s.1.call (.worker 0)) ++ callWaiting (s.1.outside ()) ++ s.2.todo ++
    s.2.roots

def WorkerPc.runs {α : Type*} : WorkerPc α → Bool
  | .running .. => true
  | _ => false

/-- `run` is not running, or has seen `pending_` at zero. -/
def RunPc.closed : RunPc → Bool
  | .idle | .notifyAll | .join _ => true
  | _ => false

/-- What holds with one worker: the outside thread has done its part when `run` begins, the
worker that has children left to submit runs their parent, and nothing is left when `run` has
seen `pending_` at zero. -/
structure Alone (s : State Unit (SpawnTree β)) (c : Client β) : Prop where
  one : s.numWorkers ≤ 1
  before : c.called = false → s.runner = .idle
  after : c.called = true → c.roots = [] ∧ s.outside () = none
  todo : (s.worker 0).runs = false → c.todo = []
  done : c.called = true → s.runner.closed = true → s.queue = [] ∧ (s.worker 0).runs = false

section Steps
variable {s u : State Unit (SpawnTree β)} {c c' : Client β} {i : ℕ} {pc : WorkerPc (SpawnTree β)}
  {roots : List (SpawnTree β)}

theorem WorkerPc.runs_wake (w : WorkerPc (SpawnTree β)) : w.wake.runs = w.runs := by
  cases w <;> rfl

theorem RunPc.closed_wake (r : RunPc) : r.wake.closed = r.closed := by
  cases r <;> rfl

/-- Only worker 0 exists. -/
theorem Alone.worker_eq (h : Alone s c) (hi : Inv s) (hw : s.worker i ≠ .off) : i = 0 := by
  have hlt := hi.lt hw
  have hone := h.one
  omega

/-- A worker exists only once `run` has been called. -/
theorem Alone.called (h : Alone s c) (hi : Inv s) (hw : s.worker i ≠ .off) : c.called = true := by
  by_contra hc
  refine hw (hi.off i fun hact => ?_)
  have hlate := hact.2
  rw [h.before (by simpa using hc)] at hlate
  exact hlate

/-- What a step does to the tasks that have not begun. -/
structure Keeps (s u : State Unit (SpawnTree β)) (c c' : Client β) : Prop where
  alone : Alone u c'
  waiting : waiting (u, c') = waiting (s, c)

/-- A step that leaves the threads which run or submit tasks, and `queue_`, where they are. -/
theorem Alone.still (h : Alone s c) (hn : u.numWorkers = s.numWorkers) (hq : u.queue = s.queue)
    (ho : u.outside = s.outside) (hw : (u.worker 0).runs = (s.worker 0).runs)
    (hcall : callWaiting (u.call (.worker 0)) = callWaiting (s.call (.worker 0)))
    (hr : s.runner = .idle → u.runner = .idle)
    (hdone : u.runner.closed = true →
      s.runner.closed = true ∨ s.queue = [] ∧ (s.worker 0).runs = false) : Keeps s u c c where
  alone :=
    { one := hn ▸ h.one
      before := fun hc => hr (h.before hc)
      after := fun hc => by
        rw [ho]
        exact h.after hc
      todo := fun hw' => h.todo (hw ▸ hw')
      done := fun hc hclosed => by
        rw [hq, hw]
        exact (hdone hclosed).elim (h.done hc) id }
  waiting := by simp only [MutexQueue.waiting, State.call, hq, ho] at hcall ⊢; rw [hcall]

theorem call_of_not_runs (h : (s.worker 0).runs = false) : s.call (.worker 0) = none := by
  cases hpc : s.worker 0 <;> simp_all [State.call, WorkerPc.runs]

/-- A step of the worker between two tasks. -/
theorem Alone.still_worker (h : Alone s c) (hi : Inv s) (hw : s.worker i ≠ .off)
    (hruns : (s.worker i).runs = false) (hpc : pc.runs = false)
    (hn : u.numWorkers = s.numWorkers) (hq : u.queue = s.queue) (ho : u.outside = s.outside)
    (hr : u.runner = s.runner ∨ u.runner = s.runner.wake) : Keeps s (u.setWorker i pc) c c := by
  obtain rfl := h.worker_eq hi hw
  have hpc' : ((u.setWorker 0 pc).worker 0).runs = false := by simpa using hpc
  refine h.still hn hq ho (hpc'.trans hruns.symm) ?_ (fun hidle => ?_) fun hclosed => .inl ?_
  · rw [call_of_not_runs hpc', call_of_not_runs hruns]
  · rcases hr with hr | hr <;> simp [hr, hidle, RunPc.wake]
  · rcases hr with hr | hr
    · simpa [hr] using hclosed
    · simpa [hr, RunPc.closed_wake] using hclosed

/-- A step of `run` that leaves the workers alone. -/
theorem Alone.still_runner (h : Alone s c) {r : RunPc} (hn : u.numWorkers = s.numWorkers)
    (hq : u.queue = s.queue) (ho : u.outside = s.outside) (hr : u.runner = r)
    (hw : u.worker = s.worker) (hidle : s.runner ≠ .idle)
    (hclosed : r.closed = true → s.runner.closed = true) : Keeps s u c c := by
  refine h.still hn hq ho (by rw [hw]) (by simp only [State.call, hw]) (fun hs => absurd hs hidle) ?_
  intro hu
  exact .inl (hclosed (hr ▸ hu))

theorem keeps_runner (h : Alone s c) (hi : Inv s) (hsync : Sync s) (he : Effect s .runner u) :
    Keeps s u c c := by
  cases he with
  | lockReset hr hmu => exact h.still_runner rfl rfl rfl rfl rfl (by simp [hr]) (by rintro ⟨⟩)
  | reset hr => exact h.still_runner rfl rfl rfl rfl rfl (by simp [hr]) (by rintro ⟨⟩)
  | @launch i hr hlt =>
    have hoff : s.worker i = .off := hi.off i fun hact => by simp [Active, hr] at hact
    obtain rfl : i = 0 := by
      have := h.one
      omega
    refine h.still rfl rfl rfl (by simp [hoff, WorkerPc.runs]) ?_ (by simp [hr]) (by rintro ⟨⟩)
    simp [State.call, hoff]
  | launched hr hlt => exact h.still_runner rfl rfl rfl rfl rfl (by simp [hr]) (by rintro ⟨⟩)
  | lockWait hr hmu =>
    exact h.still_runner rfl rfl rfl rfl rfl (by rcases hr with hr | hr <;> simp [hr])
      (by rintro ⟨⟩)
  | zero hr hp => exact h.still_runner rfl rfl rfl rfl rfl (by simp [hr]) (by rintro ⟨⟩)
  | positive hr hp => exact h.still_runner rfl rfl rfl rfl rfl (by simp [hr]) (by rintro ⟨⟩)
  | blockDone hr => exact h.still_runner rfl rfl rfl rfl rfl (by simp [hr]) (by rintro ⟨⟩)
  | setShutdown hr =>
    obtain ⟨hq, hw⟩ := hi.settled (hsync.zero hr)
    refine h.still rfl rfl rfl rfl rfl (by simp [hr]) fun _ => .inr ⟨hq, ?_⟩
    have h0 := hw 0
    cases hpc : s.worker 0 with
    | running task call =>
      have hcall := callOwed_nonneg call
      rw [hpc, WorkerPc.owed] at h0
      omega
    | _ => rfl
  | notifyAll hr =>
    refine h.still rfl rfl rfl (WorkerPc.runs_wake _) ?_ (by simp [hr]) fun _ => .inl (by simp [hr, RunPc.closed])
    cases hpc : s.worker 0 <;> simp [State.call, hpc, WorkerPc.wake]
  | @join i hr hlt hw =>
    obtain rfl : i = 0 := by
      have := h.one
      omega
    refine h.still rfl rfl rfl (by simp [hw, WorkerPc.runs]) ?_ (by simp [hr])
      fun _ => .inl (by simp [hr, RunPc.closed])
    simp [State.call, hw]
  | ret hr hlt =>
    exact h.still_runner rfl rfl rfl rfl rfl (by simp [hr]) fun _ => by simp [hr, RunPc.closed]

theorem Alone.not_closed (h : Alone s c) (hi : Inv s) (hw : s.worker i ≠ .off)
    (hbusy : s.queue ≠ [] ∨ (s.worker 0).runs = true) : s.runner.closed = false := by
  by_contra hclosed
  obtain ⟨hq, hruns⟩ := h.done (h.called hi hw) (by simpa using hclosed)
  rcases hbusy with hbusy | hbusy
  · exact hbusy hq
  · rw [hruns] at hbusy
    cases hbusy

/-- A step of the worker at the beginning, in the middle or at the end of a task. -/
theorem Alone.busy (h : Alone s c) (hi : Inv s) (hw : s.worker i ≠ .off)
    (hbusy : s.queue ≠ [] ∨ (s.worker 0).runs = true) (hn : u.numWorkers = s.numWorkers)
    (hr : u.runner = s.runner) (ho : u.outside = s.outside) (hroots : c'.roots = c.roots)
    (hcalled : c'.called = c.called) (htodo : (u.worker 0).runs = false → c'.todo = []) :
    Alone u c' where
  one := hn ▸ h.one
  before hc := by
    rw [hr]
    exact h.before (hcalled ▸ hc)
  after hc := by
    rw [hroots, ho]
    exact h.after (hcalled ▸ hc)
  todo := htodo
  done hc hclosed := by
    rw [hr, h.not_closed hi hw hbusy] at hclosed
    cases hclosed

/-- A `submit` moves its task from the call into `queue_`. -/
theorem Submits.waiting {t : Thread Unit} {wake : Option ℕ} {call : SubmitPc (SpawnTree β)}
    {rest : Option (SubmitPc (SpawnTree β))} (h : Submits s t wake call u rest) :
    u.queue ++ callWaiting rest = s.queue ++ callWaiting (some call) := by
  cases h <;> simp [callWaiting]

theorem Submits.worker {t : Thread Unit} {wake : Option ℕ} {call : SubmitPc (SpawnTree β)}
    {rest : Option (SubmitPc (SpawnTree β))} (h : Submits s t wake call u rest)
    (hi : (s.worker i).isBlocked = false) : u.worker i = s.worker i := by
  cases h with
  | @notify j hb =>
    have hne : i ≠ j := by
      rintro rfl
      rw [hi] at hb
      cases hb
    simp [Function.update_of_ne hne]
  | _ => rfl

theorem Submits.control {t : Thread Unit} {wake : Option ℕ} {call : SubmitPc (SpawnTree β)}
    {rest : Option (SubmitPc (SpawnTree β))} (h : Submits s t wake call u rest) :
    u.numWorkers = s.numWorkers ∧ u.runner = s.runner ∧ u.outside = s.outside := by
  cases h <;> exact ⟨rfl, rfl, rfl⟩

/-- The outside thread submits before any worker exists. -/
theorem Alone.outside (h : Alone s c) (hi : Inv s) (hc : c.called = false) :
    s.worker 0 = .off := by
  by_contra hw
  rw [h.called hi hw] at hc
  cases hc

theorem keeps_outside (h : Alone s c) (hi : Inv s) {wake : Option ℕ}
    (he : Effect s (.outside () wake) u) : Keeps s u c c := by
  cases he with
  | @outside _ _ call rest v ho hu =>
    have hc : c.called = false := by
      by_contra hc
      rw [(h.after (by simpa using hc)).2] at ho
      cases ho
    have hoff := h.outside hi hc
    have hsame : v.worker 0 = s.worker 0 := hu.worker (by rw [hoff]; rfl)
    obtain ⟨hn, hr, -⟩ := hu.control
    refine ⟨⟨hn ▸ h.one, fun _ => ?_, fun hc' => ?_, fun _ => ?_, fun hc' => ?_⟩, ?_⟩
    · exact hr ▸ h.before hc
    · rw [hc] at hc'
      cases hc'
    · exact h.todo (by rw [hoff]; rfl)
    · rw [hc] at hc'
      cases hc'
    · simp only [MutexQueue.waiting, State.call, State.setOutside, hsame, hoff, ho,
        Function.update_self, callWaiting_none, List.append_nil]
      rw [hu.waiting]

/-- The client fills in the next root. -/
theorem keeps_submit (h : Alone s c) (hi : Inv s) {t : SpawnTree β}
    (hsubmit : c.submit = some (t, c')) (he : Effect s (.submit () t) u) : Keeps s u c c' := by
  obtain ⟨hc, hroots, hc', htodo⟩ := Client.submit_eq hsubmit
  have hoff := h.outside hi hc
  have hdone : c.todo = [] := h.todo (by rw [hoff]; rfl)
  cases he with
  | submit ho =>
    refine ⟨⟨h.one, fun _ => h.before hc, fun hcalled => ?_, fun _ => htodo.trans hdone,
      fun hcalled => ?_⟩, ?_⟩
    · rw [hc'] at hcalled
      cases hcalled
    · rw [hc'] at hcalled
      cases hcalled
    · simp [MutexQueue.waiting, State.call, State.setOutside, hoff, ho, htodo, hdone, hroots,
        callWaiting]

/-- The client calls `run`. -/
theorem keeps_run (h : Alone s c) (hi : Inv s) {n : ℕ} (hn : n = 1) (ho : s.outside () = none)
    (hcall : c.call = some c') (he : Effect s (.run n) u) : Keeps s u c c' := by
  obtain ⟨hc, hroots, hroots', hc', htodo⟩ := Client.call_eq hcall
  have hoff := h.outside hi hc
  have hdone : c.todo = [] := h.todo (by rw [hoff]; rfl)
  cases he with
  | run hr =>
    refine ⟨⟨hn.le, fun hcalled => ?_, fun _ => ⟨hroots', ho⟩, fun _ => htodo.trans hdone,
      fun _ hclosed => ?_⟩, ?_⟩
    · rw [hc'] at hcalled
      cases hcalled
    · cases hclosed
    · simp [MutexQueue.waiting, State.call, hoff, ho, htodo, hdone, hroots, hroots']

/-- The running task moves on in a `submit`. -/
theorem keeps_call (h : Alone s c) (hi : Inv s) {wake : Option ℕ} {x : SpawnTree β}
    {call : SubmitPc (SpawnTree β)} {rest : Option (SubmitPc (SpawnTree β))}
    (hw : s.worker i = .running x (some call)) (hu : Submits s (.worker i) wake call u rest) :
    Keeps s (u.setWorker i (.running x rest)) c c := by
  have hon : s.worker i ≠ .off := by simp [hw]
  obtain rfl := h.worker_eq hi hon
  obtain ⟨hn, hr, ho⟩ := hu.control
  refine ⟨h.busy hi hon (.inr (by rw [hw]; rfl)) hn hr ho rfl rfl fun hruns => ?_, ?_⟩
  · rw [setWorker_worker, Function.update_self] at hruns
    cases hruns
  · obtain ⟨-, hout⟩ := h.after (h.called hi hon)
    simp only [MutexQueue.waiting, State.call, setWorker_queue, setWorker_worker, setWorker_outside,
      Function.update_self, hw, ho, hout, callWaiting_none, List.append_nil]
    rw [hu.waiting]

/-- The running task begins to submit its next child. -/
theorem keeps_spawn (h : Alone s c) (hi : Inv s) {t : SpawnTree β}
    (hspawn : c.spawn = some (t, c')) (he : Effect s (.spawn i t) u) : Keeps s u c c' := by
  obtain ⟨htodo, hroots, hcalled⟩ := Client.spawn_eq hspawn
  cases he with
  | @spawn _ x _ hw =>
    have hon : s.worker i ≠ .off := by simp [hw]
    obtain rfl := h.worker_eq hi hon
    refine ⟨h.busy hi hon (.inr (by rw [hw]; rfl)) rfl rfl rfl hroots hcalled fun hruns => ?_, ?_⟩
    · rw [setWorker_worker, Function.update_self] at hruns
      cases hruns
    · obtain ⟨-, hout⟩ := h.after (h.called hi hon)
      simp [MutexQueue.waiting, State.call, hw, hout, htodo, hroots, callWaiting]

/-- The running task returns, with all its children submitted. -/
theorem keeps_finish (h : Alone s c) (hi : Inv s) (hfinish : c.finish = some c')
    (he : Effect s (.finish i) u) : Keeps s u c c' := by
  obtain ⟨rfl, htodo⟩ := Client.finish_eq hfinish
  cases he with
  | @finish _ x hw =>
    have hon : s.worker i ≠ .off := by simp [hw]
    obtain rfl := h.worker_eq hi hon
    refine ⟨h.busy hi hon (.inr (by rw [hw]; rfl)) rfl rfl rfl rfl rfl fun _ => htodo, ?_⟩
    simp [MutexQueue.waiting, State.call, hw]

/-- The worker either begins the task that is first in line, or moves none. -/
theorem worker_order (h : Alone s c) (hi : Inv s) {wake : Option ℕ}
    (he : Effect s (.worker i wake) u) :
    Alone u (c.start (taken s (.worker i wake))) ∧
      breadthFirst (waiting (s, c)) = (taken s (.worker i wake)).toList ++
        breadthFirst (waiting (u, c.start (taken s (.worker i wake)))) := by
  have hkeep : taken s (.worker i wake) = none → Keeps s u c c →
      Alone u (c.start (taken s (.worker i wake))) ∧
        breadthFirst (waiting (s, c)) = (taken s (.worker i wake)).toList ++
          breadthFirst (waiting (u, c.start (taken s (.worker i wake)))) := by
    intro hnone hk
    rw [hnone]
    exact ⟨hk.alone, (congrArg breadthFirst hk.waiting).symm⟩
  cases he with
  | call hw hu => exact hkeep (by simp [taken, hw]) (keeps_call h hi hw hu)
  | lock hw hmu =>
    refine hkeep (by rcases hw with hw | hw <;> simp [taken, hw]) ?_
    exact h.still_worker hi (by rcases hw with hw | hw <;> simp [hw])
      (by rcases hw with hw | hw <;> simp [hw, WorkerPc.runs]) rfl rfl rfl rfl (.inl rfl)
  | found hw hp =>
    exact hkeep (by simp [taken, hw])
      (h.still_worker hi (by simp [hw]) (by rw [hw]; rfl) rfl rfl rfl rfl (.inl rfl))
  | wait hw hq hs =>
    exact hkeep (by simp [taken, hw])
      (h.still_worker hi (by simp [hw]) (by rw [hw]; rfl) rfl rfl rfl rfl (.inl rfl))
  | block hw =>
    exact hkeep (by simp [taken, hw])
      (h.still_worker hi (by simp [hw]) (by rw [hw]; rfl) rfl rfl rfl rfl (.inl rfl))
  | @take _ _ task rest hw hq =>
    have hon : s.worker i ≠ .off := by simp [hw]
    obtain rfl := h.worker_eq hi hon
    have htake : taken s (.worker 0 wake) = some task := by simp [taken, hw, hq]
    have hruns : (s.worker 0).runs = false := by rw [hw]; rfl
    rw [htake]
    constructor
    · refine h.busy hi hon (.inl (by simp [hq])) rfl rfl rfl rfl rfl fun hr => ?_
      rw [setWorker_worker, Function.update_self] at hr
      cases hr
    · obtain ⟨hroots, hout⟩ := h.after (h.called hi hon)
      have hline : waiting (s, c) = task :: rest := by
        simp [waiting, State.call, hw, hq, hout, h.todo hruns, hroots]
      rw [hline, SpawnForest.breadthFirst_cons]
      simp [waiting, State.call, hout, hroots, Client.start]
  | exit hw hq =>
    exact hkeep (by simp [taken, hw, hq])
      (h.still_worker hi (by simp [hw]) (by rw [hw]; rfl) rfl rfl rfl rfl (.inl rfl))
  | last hw hp =>
    exact hkeep (by simp [taken, hw])
      (h.still_worker hi (by simp [hw]) (by rw [hw]; rfl) rfl rfl rfl rfl (.inl rfl))
  | decrement hw hp =>
    exact hkeep (by simp [taken, hw])
      (h.still_worker hi (by simp [hw]) (by rw [hw]; rfl) rfl rfl rfl rfl (.inl rfl))
  | notifyDone hw =>
    exact hkeep (by simp [taken, hw])
      (h.still_worker hi (by simp [hw]) (by rw [hw]; rfl) rfl rfl rfl rfl (.inr rfl))

/-- A spurious wake-up moves no task. -/
theorem keeps_spurious (h : Alone s c) (hi : Inv s) :
    (∀ i, Effect s (.spuriousWorker i) u → Keeps s u c c) ∧
      (Effect s .spuriousRunner u → Keeps s u c c) := by
  refine ⟨fun i he => ?_, fun he => ?_⟩
  · cases he with
    | spuriousWorker hb =>
      have hw : s.worker i = .blocked := by
        cases hpc : s.worker i <;> simp_all [WorkerPc.isBlocked]
      exact h.still_worker hi (by simp [hw]) (by rw [hw]; rfl) rfl rfl rfl rfl (.inl rfl)
  · cases he with
    | spuriousRunner hr => exact h.still_runner rfl rfl rfl rfl rfl (by simp [hr]) (by rintro ⟨⟩)

/-- Each step emits what it takes off the front of the breadth-first order of what is left. -/
theorem alone_step {s u : State Unit (SpawnTree β) × Client β} {k : Action Unit Unit}
    (h : Alone s.1 s.2) (hi : Inv s.1) (hsync : Sync s.1)
    (hs : (scheduled roots).step s k = some u) :
    Alone u.1 u.2 ∧ breadthFirst (waiting s) =
      (executed s k).toList ++ breadthFirst (waiting u) := by
  obtain ⟨s, c⟩ := s
  obtain ⟨u, c'⟩ := u
  obtain ⟨a, ha, hstep⟩ := drive_step hs
  have he := step_effect hstep
  have hkeep : executed (s, c) k = none → Keeps s u c c' → Alone u c' ∧
      breadthFirst (waiting (s, c)) =
        (executed (s, c) k).toList ++ breadthFirst (waiting (u, c')) := by
    intro hnone hk
    rw [hnone]
    exact ⟨hk.alone, (congrArg breadthFirst hk.waiting).symm⟩
  cases k with
  | submit o x =>
    obtain ⟨⟨t, d⟩, ht, heq⟩ := Option.map_eq_some_iff.mp ha
    obtain ⟨rfl, rfl⟩ := Prod.mk.inj heq
    exact hkeep rfl (keeps_submit h hi ht he)
  | outside o wake =>
    obtain ⟨rfl, rfl⟩ := Prod.mk.inj (Option.some.inj ha)
    exact hkeep rfl (keeps_outside h hi he)
  | spawn i x =>
    obtain ⟨⟨t, d⟩, ht, heq⟩ := Option.map_eq_some_iff.mp ha
    obtain ⟨rfl, rfl⟩ := Prod.mk.inj heq
    exact hkeep rfl (keeps_spawn h hi ht he)
  | finish i =>
    obtain ⟨d, hd, heq⟩ := Option.map_eq_some_iff.mp ha
    obtain ⟨rfl, rfl⟩ := Prod.mk.inj heq
    exact hkeep rfl (keeps_finish h hi hd he)
  | worker i wake =>
    obtain ⟨rfl, rfl⟩ := Prod.mk.inj (Option.some.inj ha)
    exact worker_order h hi he
  | run n =>
    simp only [drive] at ha
    split_ifs at ha with hn
    obtain ⟨d, hd, heq⟩ := Option.map_eq_some_iff.mp ha
    obtain ⟨rfl, rfl⟩ := Prod.mk.inj heq
    exact hkeep rfl (keeps_run h hi hn.1 (by simpa using hn.2) hd he)
  | runner =>
    obtain ⟨rfl, rfl⟩ := Prod.mk.inj (Option.some.inj ha)
    exact hkeep rfl (keeps_runner h hi hsync he)
  | spuriousWorker i =>
    obtain ⟨rfl, rfl⟩ := Prod.mk.inj (Option.some.inj ha)
    exact hkeep rfl ((keeps_spurious h hi).1 i he)
  | spuriousRunner =>
    obtain ⟨rfl, rfl⟩ := Prod.mk.inj (Option.some.inj ha)
    exact hkeep rfl ((keeps_spurious h hi).2 he)

end Steps

section Runs
variable {roots : List (SpawnTree β)} {s : State Unit (SpawnTree β) × Client β}
  {tr : List ((State Unit (SpawnTree β) × Client β) × Action Unit Unit)}

theorem alone_init : Alone (machine Unit (SpawnTree β)).init (Client.init roots) where
  one := Nat.zero_le 1
  before _ := rfl
  after h := by cases h
  todo _ := rfl
  done h := by cases h

/-- What holds in every run of one worker on a forest. -/
structure Settled (s : State Unit (SpawnTree β) × Client β) : Prop where
  alone : Alone s.1 s.2
  inv : Inv s.1
  sync : Sync s.1

theorem settled_init : Settled (scheduled roots).init := ⟨alone_init, inv_init, sync_init⟩

theorem settled_step (u : State Unit (SpawnTree β) × Client β) (k : Action Unit Unit)
    (v : State Unit (SpawnTree β) × Client β) (h : Settled u)
    (hs : (scheduled roots).step u k = some v) : Settled v := by
  obtain ⟨a, -, hstep⟩ := drive_step hs
  exact ⟨(alone_step h.alone h.inv h.sync hs).1, inv_step _ _ _ h.inv hstep,
    sync_step h.inv h.sync hstep⟩

/-- The tasks that have begun, and then those left in breadth-first order, are the forest in
breadth-first order. -/
theorem executed_order (h : Run (scheduled roots) tr s) :
    log executed tr ++ breadthFirst (waiting s) = breadthFirst roots := by
  have horder : log executed tr ++ breadthFirst (waiting s) =
      breadthFirst (waiting (scheduled roots).init) :=
    log_order settled_init settled_step
      (fun u k v hu hs => (alone_step hu.alone hu.inv hu.sync hs).2) h
  exact horder

theorem waiting_of_returned (h : Run (scheduled roots) tr s) (hr : Returned s) :
    waiting s = [] := by
  have hs := Run.invariant settled_init settled_step h
  obtain ⟨hroots, hout⟩ := hs.alone.after hr.1
  obtain ⟨hq, hruns⟩ := hs.alone.done hr.1 (by rw [hr.2]; rfl)
  simp [waiting, call_of_not_runs hruns, hq, hout, hs.alone.todo hruns, hroots]

end Runs

end TaskScheduler.MutexQueue
