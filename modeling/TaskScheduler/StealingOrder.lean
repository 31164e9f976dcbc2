import TaskScheduler.DequeRefinement
import TaskScheduler.Driven
import TaskScheduler.SpawnForest
import TaskScheduler.StealingDequesInvariant

/-!
# The order in which one worker of WorkStealingScheduler executes a forest

A thread submits the roots and calls `run(1)`; every task submits its children while it runs. Each
access inside `push_bottom`, with the growths of the array, and inside `pop_bottom` is a step.
-/
namespace TaskScheduler.StealingDeques
open Transition SpawnForest DequeAbstract
open SpawnTree (depthFirstAll)
open WorkStealing (SubmitPc WorkerPc RunPc asInt u32)

variable {α β : Type*}

section Stack
variable {d d' : Deque.State ℕ α}

/-- The tasks in the list, and then the one that the pop in progress has taken out. -/
def stackOf (x : DoubleEnded α) : List α :=
  x.items ++ match x.owner with
    | .popped task => [task]
    | _ => []

def stack (d : Deque.State ℕ α) : List α := stackOf (Deque.abs d)

theorem owner_idle (h : (Deque.abs d).owner = .idle) : d.owner = .idle := by
  cases hpc : d.owner with
  | idle => rfl
  | popGet b a t =>
    simp only [Deque.abs, hpc, Deque.ownerCall] at h
    split at h <;> cases h
  | popRaiseBot b won raw =>
    simp only [Deque.abs, hpc, Deque.ownerCall] at h
    split at h <;> cases h
  | _ =>
    simp only [Deque.abs, hpc, Deque.ownerCall] at h
    cases h

theorem abs_owner_idle (h : d.owner = .idle) : (Deque.abs d).owner = .idle := by
  simp only [Deque.abs, h, Deque.ownerCall]

/-- Only a thief takes from the front. -/
theorem event_owner {r : Option α} : Deque.event d .owner ≠ some (.removeFront r) := by
  intro h
  cases hpc : d.owner <;>
    simp only [Deque.event, Deque.ownerEvent, hpc, Deque.ownerStep, Option.map_none,
      Option.map_some, reduceCtorEq, Option.some.injEq] at h
  all_goals
    split_ifs at h <;> simp at h

/-- `push_bottom` puts its task on top of the stack, with its last access. -/
theorem pushStep_stack {task : α} {last : Bool} (h : Deque.Inv d)
    (ho : (Deque.abs d).owner = .idle ∨ (Deque.abs d).owner = .pushing task)
    (hs : pushStep d task = some (d', last)) :
    (Deque.abs d').owner = (if last then .idle else .pushing task) ∧
      stack d' = stack d ++ (if last then [task] else []) := by
  by_cases hidle : d.owner = .idle
  · simp only [pushStep, hidle, Option.map_eq_some_iff, Prod.mk.injEq] at hs
    obtain ⟨e, hstep, rfl, rfl⟩ := hs
    have hf := Deque.step_follows h hstep
    have hcall := abs_owner_idle hidle
    simp only [Deque.Follows, Deque.event, DequeAbstract.step, hcall, Option.some.injEq] at hf
    simp [stack, stackOf, ← hf, hcall]
  · have hcall := ho.resolve_left fun hi => hidle (owner_idle hi)
    have hs' : ∃ e, Deque.step d .owner = some e ∧ e = d' ∧ (Deque.pushed d .owner).isSome = last := by
      cases hpc : d.owner <;>
        simp only [pushStep, hpc, Option.map_eq_some_iff, Prod.mk.injEq] at hs <;>
        first | exact hs | exact absurd hpc hidle
    obtain ⟨e, hstep, rfl, rfl⟩ := hs'
    have hf := Deque.step_follows h hstep
    rw [← Deque.event_appended]
    cases he : Deque.event d .owner with
    | none =>
      rw [he] at hf
      have hsame : Deque.abs e = Deque.abs d := hf
      simp [stack, hsame, hcall]
    | some ev =>
      rw [he] at hf
      cases ev with
      | append t =>
        simp only [Deque.Follows, DequeAbstract.step] at hf
        split_ifs at hf with ht
        obtain rfl : task = t := Call.pushing.inj (hcall.symm.trans ht)
        simp [stack, stackOf, ← Option.some.inj hf, hcall, Event.appended]
      | removeFront r => exact absurd he event_owner
      | _ => simp [Deque.Follows, DequeAbstract.step, hcall] at hf

/-- `pop_bottom` returns the top of the stack, or nothing. -/
theorem popStep_stack {r : Option (Option α)} (h : Deque.Inv d)
    (ho : ∀ t, (Deque.abs d).owner ≠ .pushing t) (hs : popStep d = some (d', r)) :
    stack d = stack d' ++ r.join.toList ∧ ∀ t, (Deque.abs d').owner ≠ .pushing t := by
  by_cases hidle : d.owner = .idle
  · simp only [popStep, hidle, Option.map_eq_some_iff, Prod.mk.injEq] at hs
    obtain ⟨e, hstep, rfl, rfl⟩ := hs
    have hf := Deque.step_follows h hstep
    have hcall := abs_owner_idle hidle
    simp only [Deque.Follows, Deque.event, DequeAbstract.step, hcall, Option.some.injEq] at hf
    simp [stack, stackOf, ← hf, hcall]
  · have hs' : ∃ e, Deque.step d .owner = some e ∧ e = d' ∧ Deque.popReturn d .owner = r := by
      cases hpc : d.owner <;>
        simp only [popStep, hpc, Option.map_eq_some_iff, Prod.mk.injEq] at hs <;>
        first | exact hs | exact absurd hpc hidle
    obtain ⟨e, hstep, rfl, rfl⟩ := hs'
    have hf := Deque.step_follows h hstep
    have hret : (Deque.popReturn d .owner).join = (Deque.event d .owner).bind Event.returned := by
      rw [Deque.event_returned, Deque.returned]
      simp [Deque.stealReturn]
    rw [hret]
    cases he : Deque.event d .owner with
    | none =>
      rw [he] at hf
      have hsame : Deque.abs e = Deque.abs d := hf
      simp [stack, hsame, ho]
    | some ev =>
      rw [he] at hf
      cases ev with
      | append t => simp [Deque.Follows, DequeAbstract.step, ho t] at hf
      | removeBack =>
        cases hcall : (Deque.abs d).owner with
        | popping =>
          cases hlast : (Deque.abs d).items.getLast? with
          | none => simp [Deque.Follows, DequeAbstract.step, hcall, hlast] at hf
          | some x =>
            obtain ⟨pre, hpre⟩ := List.getLast?_eq_some_iff.mp hlast
            simp only [Deque.Follows, DequeAbstract.step_removeBack hcall hpre,
              Option.some.injEq] at hf
            simp [stack, stackOf, ← hf, hcall, hpre, Event.returned]
        | _ => simp [Deque.Follows, DequeAbstract.step, hcall] at hf
      | returnPop r =>
        cases hcall : (Deque.abs d).owner with
        | popping =>
          simp only [Deque.Follows, DequeAbstract.step, hcall] at hf
          split_ifs at hf with hr
          subst hr
          simp [stack, stackOf, ← Option.some.inj hf, hcall, Event.returned]
        | popped x =>
          simp only [Deque.Follows, DequeAbstract.step, hcall] at hf
          split_ifs at hf with hr
          subst hr
          simp [stack, stackOf, ← Option.some.inj hf, hcall, Event.returned]
        | _ => simp [Deque.Follows, DequeAbstract.step, hcall] at hf
      | removeFront r => exact absurd he event_owner
      | callPush t =>
        cases hcall : (Deque.abs d).owner with
        | idle => exact absurd (owner_idle hcall) hidle
        | _ => simp [Deque.Follows, DequeAbstract.step, hcall] at hf
      | callPop =>
        cases hcall : (Deque.abs d).owner with
        | idle => exact absurd (owner_idle hcall) hidle
        | _ => simp [Deque.Follows, DequeAbstract.step, hcall] at hf

end Stack

/-- The client of the scheduler: it fills in the tasks that are submitted, and calls `run` once,
with one worker, when the last `submit` has returned. -/
def drive (c : Client β) (s : State Unit (SpawnTree β)) :
    Action Unit Unit → Option (Action Unit (SpawnTree β) × Client β)
  | .submit (.outside o) _ => c.submit.map fun r => (.submit (.outside o) r.1, r.2)
  | .submit (.worker i) _ => c.spawn.map fun r => (.submit (.worker i) r.1, r.2)
  | .call t => some (.call t, c)
  | .worker i rng => some (.worker i rng, c.start (started s (.worker i rng)))
  | .finish i => c.finish.map fun c' => (.finish i, c')
  | .run n =>
    if n = 1 ∧ (s.call (.outside ())).isNone then c.call.map fun c' => (.run n, c') else none
  | .runner => some (.runner, c)

/-- The scheduler with its client. -/
def scheduled (roots : List (SpawnTree β)) :
    Machine (State Unit (SpawnTree β) × Client β) (Action Unit Unit) :=
  (machine Unit (SpawnTree β)).drive (Client.init roots) drive

/-- The task that begins with this step. -/
def executed (s : State Unit (SpawnTree β) × Client β) : Action Unit Unit → Option (SpawnTree β)
  | .worker i rng => started s.1 (.worker i rng)
  | _ => none

/-- `run` has been called and has returned. -/
def Returned (s : State Unit (SpawnTree β) × Client β) : Prop :=
  s.2.called ∧ s.1.run = .idle

def callTask : SubmitPc α → α
  | .check task | .addLocal _ task | .pushLocal _ task | .lock task | .addInject task
  | .pushInject task => task

def callWaiting (call : Option (SubmitPc α)) : List α := call.toList.map callTask

/-- The tasks counted in `pending_` by the call and not pushed yet. -/
def callCounted (call : Option (SubmitPc α)) : ℕ := call.elim 0 fun pc => pc.tasks.card

/-- The deque of worker 0 as a stack. -/
def firstStack (deque : ℕ → Option (Deque.State ℕ α)) : List α := (deque 0).elim [] stack

def State.stack {ι : Type*} (s : State ι α) : List α := firstStack s.deque

/-- The tasks that have not begun, from the bottom of the stack on. -/
def waiting (s : State Unit (SpawnTree β) × Client β) : List (SpawnTree β) :=
  s.1.stack ++ s.1.injectQueue ++ callWaiting (s.1.call (.outside ())) ++
    callWaiting (s.1.call (.worker 0)) ++ s.2.todo ++ s.2.roots

/-- The contexts have been built. -/
def built : RunPc → Bool
  | .build _ | .reset | .lockDrain | .drain | .launch _ | .wait | .setShutdown | .join _ => true
  | _ => false

/-- The injection queue has been drained, and the contexts are still there. -/
def live : RunPc → Bool
  | .launch _ | .wait | .setShutdown | .join _ => true
  | _ => false

/-- `run` has not begun to drain the injection queue. -/
def early : RunPc → Bool
  | .clear | .resize | .build _ | .reset | .lockDrain => true
  | _ => false

/-- `run` is not running, or has seen `pending_` at zero. -/
def closed : RunPc → Bool
  | .idle | .setShutdown | .join _ | .clearEnd => true
  | _ => false

/-- Who is inside the owner operation in progress on the deque of worker 0. -/
def Fits {ι : Type*} (s : State ι α) : Call α → Prop
  | .idle => True
  | .pushing task => (∃ wid, s.call (.worker 0) = some (.pushLocal wid task)) ∨
      s.run = .drain ∧ ∃ rest, s.injectQueue = task :: rest
  | .popping | .popped _ => s.worker 0 = .pop

/-- What holds with one worker. Its tasks push to its own deque, which nobody else touches once
`run` has drained the injection queue into it. -/
structure Alone (s : State Unit (SpawnTree β)) (c : Client β) : Prop where
  one : s.numWorkers ≤ 1
  before : c.called = false → s.run = .idle
  after : c.called = true → c.roots = [] ∧ s.call (.outside ()) = none
  todo : (s.worker 0).isRunning = false → c.todo = []
  sized : built s.run = true → s.size = s.numWorkers
  drained : live s.run = true → s.injectQueue = []
  fresh : c.called = false ∨ early s.run = true → s.stack = []
  route : ∀ pc, s.call (.worker 0) = some pc → pc = .check (callTask pc) ∨ pc.wid?.isSome
  owner : ∀ d, s.deque 0 = some d → Fits s (Deque.abs d).owner
  count : s.pending = (s.stack.length + s.injectQueue.length + callCounted (s.call (.outside ())) +
    callCounted (s.call (.worker 0)) + (s.worker 0).tasks.card : ℕ)
  done : c.called = true → closed s.run = true → s.pending = 0

/-- What a step does to the tasks that have not begun. -/
structure Keeps (s u : State Unit (SpawnTree β)) (c c' : Client β) : Prop where
  alone : Alone u c'
  waiting : waiting (u, c') = waiting (s, c)

section Steps
variable {s u : State Unit (SpawnTree β)} {c c' : Client β} {i : ℕ}
  {pc : WorkerPc (SpawnTree β)} {roots : List (SpawnTree β)}

/-- Only worker 0 exists. -/
theorem Alone.worker_eq (h : Alone s c) (hi : Inv s) (hw : s.worker i ≠ .off) : i = 0 := by
  have hlt := hi.lt hw
  have hone := h.one
  omega

theorem Inv.run_live (hi : Inv s) (hw : s.worker i ≠ .off) : live s.run = true := by
  have hact := (hi.active hw).2
  cases hr : s.run <;> simp_all [live]

/-- A worker exists only once `run` has been called. -/
theorem Alone.called (h : Alone s c) (hi : Inv s) (hw : s.worker i ≠ .off) : c.called = true := by
  by_contra hc
  have hlive := hi.run_live hw
  rw [h.before (by simpa using hc)] at hlive
  cases hlive

/-- While a worker exists it is the only one, and the injection queue is empty. -/
theorem Alone.lone (h : Alone s c) (hi : Inv s) (hw : s.worker i ≠ .off) :
    s.size = 1 ∧ s.injectQueue = [] := by
  have hlive := hi.run_live hw
  have hbuilt : built s.run = true := by cases hr : s.run <;> simp_all [live, built]
  have hlt := hi.lt hw
  have hone := h.one
  exact ⟨by rw [h.sized hbuilt]; omega, h.drained hlive⟩

theorem Alone.not_closed (h : Alone s c) (hi : Inv s) (hw : s.worker i ≠ .off)
    (hbusy : 0 < s.stack.length + (s.worker 0).tasks.card) : closed s.run = false := by
  by_contra hclosed
  have hzero := h.done (h.called hi hw) (by simpa using hclosed)
  have hcount := h.count
  omega

/-- The owner of the deque is idle, as far as the calls are, when it is neither in a pop, nor in
a push of worker 0, nor in one of `run`. -/
theorem Fits.of_idle {ι : Type*} {s : State ι (SpawnTree β)} {d : Deque.State ℕ (SpawnTree β)}
    (h : d.owner = .idle) : Fits s (Deque.abs d).owner := by
  rw [abs_owner_idle h]
  trivial

theorem not_early (h : live s.run = true) : early s.run = false := by
  cases hr : s.run <;> simp_all [live, early]

theorem tasks_of_not_running (h : (s.worker 0).isRunning = false) : (s.worker 0).tasks = 0 := by
  cases hw : s.worker 0 <;> simp_all [WorkerPc.isRunning, WorkerPc.tasks]

/-- A step of the worker between two tasks and outside its deque. -/
theorem Alone.still_worker (h : Alone s c) (hi : Inv s) (hw : s.worker i ≠ .off)
    (hrun : (s.worker i).isRunning = false) (hpop : s.worker i ≠ .pop)
    (hpc : pc.isRunning = false) : Keeps s (s.setWorker i pc) c c := by
  obtain rfl := h.worker_eq hi hw
  have htasks : pc.tasks = 0 := by cases pc <;> simp_all [WorkerPc.isRunning, WorkerPc.tasks]
  have hcall : s.call (.worker 0) = none := hi.quiet 0 hrun
  refine ⟨⟨h.one, h.before, h.after, fun _ => h.todo hrun, h.sized, h.drained, h.fresh, h.route,
    fun d hd => ?_, ?_, h.done⟩, rfl⟩
  · exact Fits.of_idle (hi.idle hpop (by simp [hcall]) (fun _ => hi.not_drain hw) hd)
  · have hcount := h.count
    rw [tasks_of_not_running hrun] at hcount
    rw [setWorker_worker, Function.update_self, htasks]
    exact hcount

/-- A pop takes the top of the stack, or moves no task. -/
theorem pop_order (h : Alone s c) (hi : Inv s) (hw : s.worker i = .pop)
    {d d' : Deque.State ℕ (SpawnTree β)} {r : Option (Option (SpawnTree β))}
    (hd : s.deque i = some d) (hp : popStep d = some (d', r)) :
    Alone ((s.setDeque i d').setWorker i (afterPop r)) (c.start r.join) ∧
      depthFirstAll (waiting (s, c)) = r.join.toList ++
        depthFirstAll (waiting ((s.setDeque i d').setWorker i (afterPop r), c.start r.join)) := by
  have hon : s.worker i ≠ .off := by simp [hw]
  obtain rfl := h.worker_eq hi hon
  have hnot : (s.worker 0).isRunning = false := by rw [hw]; rfl
  have hcall : s.call (.worker 0) = none := hi.quiet 0 hnot
  obtain ⟨hroots, hout⟩ := h.after (h.called hi hon)
  obtain ⟨-, hq⟩ := h.lone hi hon
  have hpushing : ∀ t, (Deque.abs d).owner ≠ .pushing t := by
    intro t ht
    have hfits := h.owner d hd
    rw [ht] at hfits
    rcases hfits with ⟨wid, hc⟩ | ⟨hdrain, -⟩
    · rw [hcall] at hc
      cases hc
    · exact hi.not_drain hon hdrain
  obtain ⟨hstack, hpushing'⟩ := popStep_stack (hi.deque 0 d hd) hpushing hp
  have hs : s.stack = StealingDeques.stack d' ++ r.join.toList := by
    rw [← hstack, State.stack, firstStack, hd]
    rfl
  have hu : ((s.setDeque 0 d').setWorker 0 (afterPop r)).stack = StealingDeques.stack d' := by
    simp [State.stack, firstStack]
  have hcount := h.count
  rw [tasks_of_not_running hnot, hs] at hcount
  constructor
  · refine ⟨h.one, fun hc => h.before (by simpa using hc), fun _ => ⟨by simpa using hroots, hout⟩,
      fun hrun => ?_, h.sized, h.drained, fun hf => ?_, h.route, fun e he => ?_, ?_, fun hc hcl => ?_⟩
    · rw [setWorker_worker, Function.update_self] at hrun
      rcases r with _ | _ | t
      · exact h.todo hnot
      · exact h.todo hnot
      · cases hrun
    · rcases hf with hf | hf
      · rw [Client.start_called, h.called hi hon] at hf
        cases hf
      · have hlive := not_early (hi.run_live hon)
        rw [setWorker_run, setDeque_run, hlive] at hf
        cases hf
    · rw [setWorker_deque, setDeque_deque, Function.update_self, Option.some.injEq] at he
      subst he
      cases r with
      | none =>
        cases hcall' : (Deque.abs d').owner with
        | pushing t => exact absurd hcall' (hpushing' t)
        | idle => trivial
        | popping | popped t =>
          change Function.update s.worker 0 .pop 0 = .pop
          exact Function.update_self _ _ _
      | some r => exact Fits.of_idle ((popStep_spec hp).2 nofun)
    · rw [hu, setWorker_worker, Function.update_self]
      rcases r with _ | _ | t <;>
      · simp [afterPop, WorkerPc.tasks, hq, hout, hcall, callCounted] at hcount ⊢
        exact hcount
    · change closed s.run = true at hcl
      have hpend : s.pending = 0 := h.done (by simpa using hc) hcl
      exact hpend
  · have hline : waiting (s, c) = StealingDeques.stack d' ++ r.join.toList := by
      simp [waiting, hs, hq, hout, hcall, callWaiting, h.todo hnot, hroots]
    rw [hline, Client.depthFirst_start _ (h.todo hnot) hroots]
    simp [waiting, hu, hq, hout, hcall, callWaiting]

theorem worker_order (h : Alone s c) (hi : Inv s) {rng : ℕ}
    (hs : step s (.worker i rng) = some u) :
    Alone u (c.start (started s (.worker i rng))) ∧
      depthFirstAll (waiting (s, c)) = (started s (.worker i rng)).toList ++
        depthFirstAll (waiting (u, c.start (started s (.worker i rng)))) := by
  simp only [step, Option.map_eq_some_iff, Prod.exists] at hs
  obtain ⟨v, pc', hv, rfl⟩ := hs
  have hkeep : started s (.worker i rng) = none → Keeps s (v.setWorker i pc') c c →
      Alone (v.setWorker i pc') (c.start (started s (.worker i rng))) ∧
        depthFirstAll (waiting (s, c)) = (started s (.worker i rng)).toList ++
          depthFirstAll (waiting (v.setWorker i pc', c.start (started s (.worker i rng)))) := by
    intro hnone hk
    rw [hnone]
    exact ⟨hk.alone, (congrArg depthFirstAll hk.waiting).symm⟩
  -- A step outside the deque, to a point that is not in a task.
  have hstill : s.worker i ≠ .off → (s.worker i).isRunning = false → s.worker i ≠ .pop →
      v = s → pc'.isRunning = false →
      Alone (v.setWorker i pc') (c.start (started s (.worker i rng))) ∧
        depthFirstAll (waiting (s, c)) = (started s (.worker i rng)).toList ++
          depthFirstAll (waiting (v.setWorker i pc', c.start (started s (.worker i rng)))) := by
    intro hon hrun hpop hsame hpc
    subst hsame
    refine hkeep ?_ (h.still_worker hi hon hrun hpop hpc)
    simp only [started, hv]
    cases pc' <;> simp_all [WorkerPc.isRunning]
  cases hw : s.worker i with
  | start =>
    rw [hw] at hv
    cases hv
    exact hstill (by simp [hw]) (by rw [hw]; rfl) (by simp [hw]) rfl rfl
  | pop =>
    have hstarted : ∀ r : Option (Option (SpawnTree β)), pc' = afterPop r →
        started s (.worker i rng) = r.join := by
      rintro r rfl
      simp only [started, hv]
      rcases r with _ | _ | t <;> rfl
    simp only [hw, workerStep, Option.bind_eq_some_iff, Option.map_eq_some_iff, Prod.mk.injEq] at hv
    obtain ⟨d, hd, ⟨d', r⟩, hp, rfl, rfl⟩ := hv
    rw [hstarted r rfl]
    exact pop_order h hi hw hd hp
  | checkPending =>
    rw [hw] at hv
    cases hv
    exact hstill (by simp [hw]) (by rw [hw]; rfl) (by simp [hw]) rfl (by split_ifs <;> rfl)
  | checkShutdown =>
    rw [hw] at hv
    cases hv
    exact hstill (by simp [hw]) (by rw [hw]; rfl) (by simp [hw]) rfl (by split_ifs <;> rfl)
  | pick =>
    rw [hw] at hv
    cases hv
    exact hstill (by simp [hw]) (by rw [hw]; rfl) (by simp [hw]) rfl (by split_ifs <;> rfl)
  | steal start attempt =>
    have hsize := (h.lone (i := i) hi (by simp [hw])).1
    simp only [hw, workerStep, hsize] at hv
    rw [if_neg (show ¬ attempt < u32 1 - 1 by rw [show u32 1 - 1 = 0 from rfl]; omega)] at hv
    cases hv
    exact hstill (by simp [hw]) (by rw [hw]; rfl) (by simp [hw]) rfl rfl
  | _ => simp [hw, workerStep] at hv

/-- A step of `run` that moves no task. -/
theorem Alone.still_runner (h : Alone s c) (hcalled : c.called = true)
    (hn : u.numWorkers = s.numWorkers) (hcall : u.call = s.call)
    (hq : u.injectQueue = s.injectQueue) (hp : u.pending = s.pending)
    (hrun : (u.worker 0).isRunning = (s.worker 0).isRunning)
    (htasks : (u.worker 0).tasks = (s.worker 0).tasks) (hstack : u.stack = s.stack)
    (hsized : built u.run = true → u.size = s.numWorkers)
    (hdrained : live u.run = true → s.injectQueue = [])
    (hfresh : early u.run = true → s.stack = [])
    (howner : ∀ d, u.deque 0 = some d → Fits u (Deque.abs d).owner)
    (hdone : closed u.run = true → s.pending = 0) : Keeps s u c c where
  alone :=
    { one := hn ▸ h.one
      before := fun hc => by
        rw [hcalled] at hc
        cases hc
      after := fun hc => hcall ▸ h.after hc
      todo := fun hw => h.todo (hrun ▸ hw)
      sized := fun hb => hn ▸ hsized hb
      drained := fun hl => hq ▸ hdrained hl
      fresh := fun hf => by
        rw [hstack]
        refine hfresh (hf.resolve_left fun hc => ?_)
        rw [hcalled] at hc
        cases hc
      route := hcall ▸ h.route
      owner := howner
      count := by rw [hp, hstack, hq, hcall, htasks, h.count]
      done := fun _ hcl => hp.trans (hdone hcl) }
  waiting := by simp only [StealingDeques.waiting, hstack, hq, hcall]

/-- Outside the drain, `run` leaves the owner of the deque where it is. -/
theorem Fits.keep {s u : State Unit (SpawnTree β)} {o : Call (SpawnTree β)} (h : Fits s o)
    (hdrain : s.run ≠ .drain) (hcall : u.call = s.call) (hw : u.worker 0 = s.worker 0) :
    Fits u o := by
  cases o with
  | idle => trivial
  | pushing task => exact .inl (hcall ▸ h.resolve_right fun hd => hdrain hd.1)
  | popping | popped task => exact hw.trans h

/-- The count of nothing. -/
theorem Alone.empty (h : Alone s c) (hp : s.pending = 0) :
    s.stack = [] ∧ s.injectQueue = [] ∧ (s.worker 0).isRunning = false := by
  have hcount := h.count
  refine ⟨List.eq_nil_of_length_eq_zero (by omega), List.eq_nil_of_length_eq_zero (by omega), ?_⟩
  have hcard : (s.worker 0).tasks.card = 0 := by omega
  cases hw : s.worker 0 <;> simp_all [WorkerPc.isRunning, WorkerPc.tasks]

/-- An access of the push by which `run` drains the injection queue. -/
theorem keeps_drain (h : Alone s c) (hi : Inv s) (hr : s.run = .drain) {task : SpawnTree β}
    {rest : List (SpawnTree β)} (hq : s.injectQueue = task :: rest)
    {d d' : Deque.State ℕ (SpawnTree β)} {last : Bool} (hd : s.deque 0 = some d)
    (hp : pushStep d task = some (d', last)) :
    Keeps s { s.setDeque 0 d' with injectQueue := if last then rest else task :: rest } c c := by
  have hcalled : c.called = true := by
    by_contra hc
    have hidle := h.before (by simpa using hc)
    rw [hr] at hidle
    cases hidle
  have hoff : s.worker 0 = .off := by
    by_contra hon
    exact hi.not_drain hon hr
  have hcall : s.call (.worker 0) = none := hi.quiet 0 (by rw [hoff]; rfl)
  obtain ⟨hroots, hout⟩ := h.after hcalled
  have hfits := h.owner d hd
  have ho : (Deque.abs d).owner = .idle ∨ (Deque.abs d).owner = .pushing task := by
    cases hcall' : (Deque.abs d).owner with
    | idle => exact .inl rfl
    | pushing t =>
      rw [hcall'] at hfits
      rcases hfits with ⟨wid, hc⟩ | ⟨-, rest', hq'⟩
      · rw [hcall] at hc
        cases hc
      · rw [hq] at hq'
        rw [(List.cons.inj hq').1]
        exact .inr rfl
    | popping | popped t =>
      rw [hcall'] at hfits
      rw [show s.worker 0 = .pop from hfits] at hoff
      cases hoff
  obtain ⟨howner, hstack⟩ := pushStep_stack (hi.deque 0 d hd) ho hp
  have hs : s.stack = StealingDeques.stack d := by
    rw [State.stack, firstStack, hd]
    rfl
  have hu : ∀ l, State.stack { s.setDeque 0 d' with injectQueue := l } =
      StealingDeques.stack d' := by simp [State.stack, firstStack]
  have hcount := h.count
  rw [hs, hq] at hcount
  refine ⟨⟨h.one, h.before, h.after, h.todo, h.sized, fun hl => ?_, fun hf => ?_, h.route,
    fun e he => ?_, ?_, fun _ hcl => ?_⟩, ?_⟩
  · change live s.run = true at hl
    rw [hr] at hl
    cases hl
  · rcases hf with hf | hf
    · rw [hcalled] at hf
      cases hf
    · change early s.run = true at hf
      rw [hr] at hf
      cases hf
  · change Function.update s.deque 0 (some d') 0 = some e at he
    rw [Function.update_self, Option.some.injEq] at he
    subst he
    rw [howner]
    cases last with
    | true => trivial
    | false => exact .inr ⟨hr, rest, rfl⟩
  · rw [hu, hstack]
    cases last <;> simp at hcount ⊢ <;> omega
  · change closed s.run = true at hcl
    rw [hr] at hcl
    cases hcl
  · simp only [StealingDeques.waiting, hu, hs, hstack, hq]
    cases last <;> simp

theorem keeps_runner (h : Alone s c) (hi : Inv s) (hs : step s .runner = some u) :
    Keeps s u c c := by
  simp only [step] at hs
  have hcalled : s.run ≠ .idle → c.called = true := by
    intro hr
    by_contra hc
    exact hr (h.before (by simpa using hc))
  cases hr : s.run with
  | idle => simp [hr, runStep] at hs
  | clear =>
    simp only [hr, runStep, Option.some.injEq] at hs
    subst hs
    have hst : s.stack = [] := h.fresh (.inr (by rw [hr]; rfl))
    exact h.still_runner (hcalled (by simp [hr])) rfl rfl rfl rfl rfl rfl
      (by rw [hst]; rfl) (by rintro ⟨⟩) (by rintro ⟨⟩) (fun _ => hst) (fun _ hd => by cases hd)
      (by rintro ⟨⟩)
  | resize =>
    simp only [hr, runStep, Option.some.injEq] at hs
    subst hs
    exact h.still_runner (hcalled (by simp [hr])) rfl rfl rfl rfl rfl rfl rfl (fun _ => rfl)
      (by rintro ⟨⟩)
      (fun _ => h.fresh (.inr (by rw [hr]; rfl)))
      (fun d hd => (h.owner d hd).keep (by simp [hr]) rfl rfl) (by rintro ⟨⟩)
  | build j =>
    have hst : s.stack = [] := h.fresh (.inr (by rw [hr]; rfl))
    have hsize : s.size = s.numWorkers := h.sized (by rw [hr]; rfl)
    simp only [hr, runStep] at hs
    split_ifs at hs with hj <;> cases hs
    · obtain rfl : j = 0 := by
        have := h.one
        omega
      refine h.still_runner (hcalled (by simp [hr])) rfl rfl rfl rfl rfl rfl ?_ (fun _ => hsize)
        (by rintro ⟨⟩) (fun _ => hst) (fun d hd => ?_) (by rintro ⟨⟩)
      · rw [hst]
        simp [State.stack, firstStack, StealingDeques.stack, stackOf, Deque.abs, Deque.contents, Deque.bottom,
          Deque.ownerCall, Deque.machine, Deque.initShared]
      · change Function.update s.deque 0 (some (Deque.machine ℕ (SpawnTree β)).init) 0 = some d at hd
        rw [Function.update_self, Option.some.injEq] at hd
        subst hd
        exact Fits.of_idle rfl
    · exact h.still_runner (hcalled (by simp [hr])) rfl rfl rfl rfl rfl rfl rfl (fun _ => hsize)
        (by rintro ⟨⟩) (fun _ => hst) (fun d hd => (h.owner d hd).keep (by simp [hr]) rfl rfl)
        (by rintro ⟨⟩)
  | reset =>
    simp only [hr, runStep, Option.some.injEq] at hs
    subst hs
    exact h.still_runner (hcalled (by simp [hr])) rfl rfl rfl rfl rfl rfl rfl
      (fun _ => h.sized (by rw [hr]; rfl)) (by rintro ⟨⟩)
      (fun _ => h.fresh (.inr (by rw [hr]; rfl)))
      (fun d hd => (h.owner d hd).keep (by simp [hr]) rfl rfl) (by rintro ⟨⟩)
  | lockDrain =>
    simp only [hr, runStep] at hs
    split_ifs at hs
    cases hs
    exact h.still_runner (hcalled (by simp [hr])) rfl rfl rfl rfl rfl rfl rfl
      (fun _ => h.sized (by rw [hr]; rfl)) (by rintro ⟨⟩) (by rintro ⟨⟩)
      (fun d hd => (h.owner d hd).keep (by simp [hr]) rfl rfl) (by rintro ⟨⟩)
  | drain =>
    simp only [hr, runStep] at hs
    cases hq : s.injectQueue with
    | nil =>
      simp only [hq, Option.some.injEq] at hs
      subst hs
      refine h.still_runner (hcalled (by simp [hr])) rfl rfl hq.symm rfl rfl rfl rfl
        (fun _ => h.sized (by rw [hr]; rfl)) (fun _ => hq) (by rintro ⟨⟩) (fun d hd => ?_)
        (by rintro ⟨⟩)
      exact Fits.of_idle (hi.drained hr hq d hd)
    | cons task rest =>
      simp only [hq, Option.bind_eq_some_iff, Option.map_eq_some_iff] at hs
      obtain ⟨d, hd, ⟨d', last⟩, hp, rfl⟩ := hs
      exact keeps_drain h hi hr hq hd hp
  | launch j =>
    have hsize : s.size = s.numWorkers := h.sized (by rw [hr]; rfl)
    have hq : s.injectQueue = [] := h.drained (by rw [hr]; rfl)
    simp only [hr, runStep] at hs
    split_ifs at hs with hj <;> cases hs
    · obtain rfl : j = 0 := by
        have := h.one
        omega
      have hw : s.worker 0 = .off := hi.off 0 fun hact => by simp [Active, hr] at hact
      refine h.still_runner (hcalled (by simp [hr])) rfl rfl rfl rfl ?_ ?_ rfl (fun _ => hsize)
        (fun _ => hq) (by rintro ⟨⟩) (fun d hd => Fits.of_idle ?_) (by rintro ⟨⟩)
      · simp [hw, WorkerPc.isRunning]
      · simp [hw, WorkerPc.tasks]
      · refine hi.idle (by simp [hw]) ?_ (by simp [hr]) hd
        simp [hi.quiet 0 (by rw [hw]; rfl)]
    · exact h.still_runner (hcalled (by simp [hr])) rfl rfl rfl rfl rfl rfl rfl (fun _ => hsize)
        (fun _ => hq) (by rintro ⟨⟩) (fun d hd => (h.owner d hd).keep (by simp [hr]) rfl rfl)
        (by rintro ⟨⟩)
  | wait =>
    simp only [hr, runStep] at hs
    split_ifs at hs with hp <;> cases hs
    · exact ⟨h, rfl⟩
    · have hcount := h.count
      exact h.still_runner (hcalled (by simp [hr])) rfl rfl rfl rfl rfl rfl rfl
        (fun _ => h.sized (by rw [hr]; rfl)) (fun _ => h.drained (by rw [hr]; rfl)) (by rintro ⟨⟩)
        (fun d hd => (h.owner d hd).keep (by simp [hr]) rfl rfl) fun _ => by omega
  | setShutdown =>
    simp only [hr, runStep, Option.some.injEq] at hs
    subst hs
    exact h.still_runner (hcalled (by simp [hr])) rfl rfl rfl rfl rfl rfl rfl
      (fun _ => h.sized (by rw [hr]; rfl)) (fun _ => h.drained (by rw [hr]; rfl)) (by rintro ⟨⟩)
      (fun d hd => (h.owner d hd).keep (by simp [hr]) rfl rfl)
      fun _ => h.done (hcalled (by simp [hr])) (by rw [hr]; rfl)
  | join j =>
    have hc := hcalled (by simp [hr])
    have hp : s.pending = 0 := h.done hc (by rw [hr]; rfl)
    simp only [hr, runStep] at hs
    split_ifs at hs with hj hex <;> cases hs
    · obtain rfl : j = 0 := by
        have := h.one
        omega
      have hw : s.worker 0 = .exited := by
        cases hw : s.worker 0 <;> simp_all [WorkerPc.isExited]
      refine h.still_runner hc rfl rfl rfl rfl ?_ ?_ rfl (fun _ => h.sized (by rw [hr]; rfl))
        (fun _ => h.drained (by rw [hr]; rfl)) (by rintro ⟨⟩) (fun d hd => Fits.of_idle ?_)
        fun _ => hp
      · simp [hw, WorkerPc.isRunning]
      · simp [hw, WorkerPc.tasks]
      · refine hi.idle (by simp [hw]) ?_ (by simp [hr]) hd
        simp [hi.quiet 0 (by rw [hw]; rfl)]
    · exact h.still_runner hc rfl rfl rfl rfl rfl rfl rfl (by rintro ⟨⟩) (by rintro ⟨⟩)
        (by rintro ⟨⟩)
        (fun d hd => (h.owner d hd).keep (by simp [hr]) rfl rfl) fun _ => hp
  | clearEnd =>
    have hc := hcalled (by simp [hr])
    have hp : s.pending = 0 := h.done hc (by rw [hr]; rfl)
    simp only [hr, runStep, Option.some.injEq] at hs
    subst hs
    exact h.still_runner hc rfl rfl rfl rfl rfl rfl (by rw [(h.empty hp).1]; rfl)
      (by rintro ⟨⟩) (by rintro ⟨⟩) (by rintro ⟨⟩)
      (fun _ hd => by cases hd) fun _ => hp

/-- The outside thread submits before any worker exists. -/
theorem Alone.outside (h : Alone s c) (hi : Inv s) (hc : c.called = false) :
    s.worker 0 = .off ∧ s.call (.worker 0) = none := by
  have hoff : s.worker 0 = .off := by
    by_contra hw
    rw [h.called hi hw] at hc
    cases hc
  exact ⟨hoff, hi.quiet 0 (by rw [hoff]; rfl)⟩

/-- A step of a `submit` by the outside thread. -/
theorem Alone.moveOutside (h : Alone s c) (hi : Inv s) (hc : c.called = false)
    {call : Option (SubmitPc (SpawnTree β))} {q : List (SpawnTree β)} {p : ℤ} {mu : Bool}
    (hc' : c'.called = false) (htodo : c'.todo = c.todo)
    (hp : p + s.injectQueue.length + callCounted (s.call (.outside ())) =
      s.pending + q.length + callCounted call)
    (hline : q ++ callWaiting call ++ c'.roots =
      s.injectQueue ++ callWaiting (s.call (.outside ())) ++ c.roots) :
    Keeps s ({ s with injectQueue := q, pending := p, injectMu := mu }.setCall (.outside ()) call)
      c c' := by
  obtain ⟨hoff, hcall⟩ := h.outside hi hc
  have hrun := h.before hc
  have hdone : c.todo = [] := h.todo (by rw [hoff]; rfl)
  have hcount := h.count
  refine ⟨⟨h.one, fun _ => hrun, fun hcalled => ?_, fun _ => htodo.trans hdone, h.sized,
    fun hl => ?_, fun _ => h.fresh (.inl hc), fun pc hpc => ?_, fun d hd => ?_, ?_,
    fun hcalled => ?_⟩, ?_⟩
  · rw [hc'] at hcalled
    cases hcalled
  · change live s.run = true at hl
    rw [hrun] at hl
    cases hl
  · exact h.route pc (by simpa using hpc)
  · have hd' : s.deque 0 = some d := hd
    exact Fits.of_idle (hi.idle (by simp [hoff]) (by simp [hcall]) (by simp [hrun]) hd')
  · change p = (s.stack.length + q.length +
      callCounted (Function.update s.call (.outside ()) call (.outside ())) +
      callCounted (Function.update s.call (.outside ()) call (.worker 0)) +
      (s.worker 0).tasks.card : ℕ)
    rw [Function.update_self, Function.update_of_ne (by simp)]
    omega
  · rw [hc'] at hcalled
    cases hcalled
  · have hst : State.stack (State.setCall
        { s with injectQueue := q, pending := p, injectMu := mu } (.outside ()) call) = s.stack := rfl
    simp only [StealingDeques.waiting, setCall_call, setCall_injectQueue, hst, Function.update_self,
      ne_eq, reduceCtorEq, not_false_eq_true, Function.update_of_ne, hcall, htodo, hdone]
    simpa [callWaiting] using hline

theorem keeps_outside (h : Alone s c) (hi : Inv s) (hs : step s (.call (.outside ())) = some u) :
    Keeps s u c c := by
  cases hout : s.call (.outside ()) with
  | none => simp [step, hout] at hs
  | some pc =>
    have hc : c.called = false := by
      by_contra hc
      rw [(h.after (by simpa using hc)).2] at hout
      cases hout
    simp only [step, hout, Option.map_eq_some_iff, Prod.exists] at hs
    obtain ⟨v, rest, hv, rfl⟩ := hs
    -- The outside thread has no worker id.
    have hnot : ∀ wid, pc.wid? ≠ some wid := by
      intro wid hwid
      obtain ⟨rfl, hneg⟩ := hi.route _ pc wid hout hwid
      cases hneg
    have hcounted : callCounted (s.call (.outside ())) = pc.tasks.card := by rw [hout]; rfl
    have hwaiting : callWaiting (s.call (.outside ())) = [callTask pc] := by rw [hout]; rfl
    cases pc with
    | check task =>
      have hneg : ¬ (0 ≤ (Thread.outside ()).tlWorkerId ∧
          (Thread.outside ()).tlWorkerId < asInt s.size) := fun hid => by cases hid.1
      simp only [submitStep, if_neg hneg, Option.some.injEq, Prod.mk.injEq] at hv
      obtain ⟨rfl, rfl⟩ := hv
      exact h.moveOutside hi hc (q := s.injectQueue) (p := s.pending) hc rfl
        (by rw [hcounted]; rfl) (by rw [hwaiting]; rfl)
    | lock task =>
      simp only [submitStep] at hv
      split_ifs at hv
      cases hv
      exact h.moveOutside hi hc (q := s.injectQueue) (p := s.pending) hc rfl
        (by rw [hcounted]; rfl) (by rw [hwaiting]; rfl)
    | addInject task =>
      cases hv
      refine h.moveOutside hi hc (q := s.injectQueue) hc rfl ?_ (by rw [hwaiting]; rfl)
      rw [hcounted]
      simp [callCounted, SubmitPc.tasks]
      omega
    | pushInject task =>
      cases hv
      refine h.moveOutside hi hc (p := s.pending) hc rfl ?_ ?_
      · rw [hcounted]
        simp [callCounted, SubmitPc.tasks]
        omega
      · rw [hwaiting]
        simp [callWaiting, callTask]
    | addLocal wid task => exact absurd rfl (hnot wid)
    | pushLocal wid task => exact absurd rfl (hnot wid)

theorem keeps_submit (h : Alone s c) (hi : Inv s) {t : SpawnTree β}
    (hsubmit : c.submit = some (t, c')) (hs : step s (.submit (.outside ()) t) = some u) :
    Keeps s u c c' := by
  obtain ⟨hc, hroots, hc', htodo⟩ := Client.submit_eq hsubmit
  simp only [step] at hs
  split_ifs at hs with hcan
  cases hs
  have hout : s.call (.outside ()) = none := by simpa [canSubmit] using hcan
  exact h.moveOutside hi hc (q := s.injectQueue) (p := s.pending) hc' htodo (by rw [hout]; rfl)
    (by rw [hout, hroots]; simp [callWaiting, callTask])

/-- A step of a `submit` by the task that runs. -/
theorem Alone.moveCall (h : Alone s c) (hi : Inv s) (hw : (s.worker 0).isRunning = true)
    {call : Option (SubmitPc (SpawnTree β))} {p : ℤ} {q : ℕ → Option (Deque.State ℕ (SpawnTree β))}
    (hroots : c'.roots = c.roots) (hcalled : c'.called = c.called)
    (hroute : ∀ pc, call = some pc → pc = .check (callTask pc) ∨ pc.wid?.isSome)
    (howner : ∀ d, q 0 = some d → Fits (s.setCall (.worker 0) call) (Deque.abs d).owner)
    (hp : p + s.stack.length + callCounted (s.call (.worker 0)) =
      s.pending + (firstStack q).length + callCounted call)
    (hline : firstStack q ++ callWaiting call ++ c'.todo =
      s.stack ++ callWaiting (s.call (.worker 0)) ++ c.todo) :
    Keeps s ({ s with pending := p, deque := q }.setCall (.worker 0) call) c c' := by
  have hon : s.worker 0 ≠ .off := by
    intro hoff
    rw [hoff] at hw
    cases hw
  have hcall := h.called hi hon
  obtain ⟨hroots', hout⟩ := h.after hcall
  obtain ⟨-, hq⟩ := h.lone hi hon
  have hcount := h.count
  have hopen : closed s.run = false := by
    refine h.not_closed hi hon ?_
    cases hpc : s.worker 0 <;> simp_all [WorkerPc.isRunning, WorkerPc.tasks]
  refine ⟨⟨h.one, fun hc => ?_, fun _ => ⟨hroots.trans hroots', ?_⟩, fun hrun => ?_, h.sized,
    h.drained, fun hf => ?_, fun pc hpc => hroute pc (by simpa using hpc), fun d hd => ?_, ?_,
    fun _ hcl => ?_⟩, ?_⟩
  · rw [hcalled, hcall] at hc
    cases hc
  · simpa using hout
  · change (s.worker 0).isRunning = false at hrun
    rw [hw] at hrun
    cases hrun
  · rcases hf with hf | hf
    · rw [hcalled, hcall] at hf
      cases hf
    · have hlive := not_early (hi.run_live hon)
      change early s.run = true at hf
      rw [hlive] at hf
      cases hf
  · have hfits := howner d hd
    cases ho : (Deque.abs d).owner <;> rw [ho] at hfits <;> exact hfits
  · change p = ((firstStack q).length + s.injectQueue.length +
      callCounted (Function.update s.call (.worker 0) call (.outside ())) +
      callCounted (Function.update s.call (.worker 0) call (.worker 0)) +
      (s.worker 0).tasks.card : ℕ)
    rw [Function.update_self, Function.update_of_ne (by simp)]
    omega
  · change closed s.run = true at hcl
    rw [hopen] at hcl
    cases hcl
  · change firstStack q ++ s.injectQueue ++
      callWaiting (Function.update s.call (.worker 0) call (.outside ())) ++
      callWaiting (Function.update s.call (.worker 0) call (.worker 0)) ++ c'.todo ++ c'.roots =
      s.stack ++ s.injectQueue ++ callWaiting (s.call (.outside ())) ++
      callWaiting (s.call (.worker 0)) ++ c.todo ++ c.roots
    rw [Function.update_self, Function.update_of_ne (by simp), hout, hq, hroots, hroots']
    simpa [callWaiting] using hline

theorem keeps_call (h : Alone s c) (hi : Inv s) (hs : step s (.call (.worker i)) = some u) :
    Keeps s u c c := by
  cases hcall : s.call (.worker i) with
  | none => simp [step, hcall] at hs
  | some pc =>
    have hrun : (s.worker i).isRunning = true := by
      by_contra hr
      rw [hi.quiet i (by simpa using hr)] at hcall
      cases hcall
    have hon : s.worker i ≠ .off := by
      intro hoff
      rw [hoff] at hrun
      cases hrun
    obtain rfl := h.worker_eq hi hon
    simp only [step, hcall, Option.map_eq_some_iff, Prod.exists] at hs
    obtain ⟨v, rest, hv, rfl⟩ := hs
    have hcounted : callCounted (s.call (.worker 0)) = pc.tasks.card := by rw [hcall]; rfl
    have hwaiting : callWaiting (s.call (.worker 0)) = [callTask pc] := by rw [hcall]; rfl
    have hfits : ∀ d, s.deque 0 = some d → (∀ wid task, pc ≠ .pushLocal wid task) →
        d.owner = .idle := by
      intro d hd hne
      refine hi.idle (fun hpop => ?_) (fun wid task hc => ?_) (fun _ => hi.not_drain hon) hd
      · rw [hpop] at hrun
        cases hrun
      · rw [hcall, Option.some.injEq] at hc
        exact hne wid task hc
    rcases h.route pc hcall with hcheck | hlocal
    · obtain ⟨hsize, -⟩ := h.lone hi hon
      rw [hcheck] at hv
      have hid : 0 ≤ (Thread.worker 0 : Thread Unit).tlWorkerId ∧
          (Thread.worker 0 : Thread Unit).tlWorkerId < asInt s.size := by
        rw [hsize]
        decide
      simp only [submitStep, if_pos hid, Option.some.injEq, Prod.mk.injEq] at hv
      obtain ⟨rfl, rfl⟩ := hv
      refine h.moveCall hi hrun (p := s.pending) (q := s.deque) rfl rfl ?_
        (fun d hd => Fits.of_idle (hfits d hd ?_)) ?_ ?_
      · rintro pc' ⟨⟩
        exact .inr rfl
      · rw [hcheck]
        rintro _ _ ⟨⟩
      · rw [hcounted, hcheck]
        rfl
      · rw [hwaiting]
        rfl
    · cases pc with
      | addLocal wid task =>
        cases hv
        refine h.moveCall hi hrun (q := s.deque) rfl rfl ?_
          (fun d hd => Fits.of_idle (hfits d hd (by simp))) ?_ (by rw [hwaiting]; rfl)
        · rintro pc' ⟨⟩
          exact .inr rfl
        · rw [hcounted]
          change s.pending + 1 + s.stack.length + _ = s.pending + s.stack.length + _
          simp [callCounted, SubmitPc.tasks]
          omega
      | pushLocal wid task =>
        obtain ⟨j, hj, hwid, -⟩ := hi.local_worker hcall rfl
        cases hj
        simp only [submitStep, hwid, Option.bind_eq_some_iff, Option.map_eq_some_iff,
          Prod.mk.injEq] at hv
        obtain ⟨d, hd, ⟨d', last⟩, hp, rfl, rfl⟩ := hv
        have ho : (Deque.abs d).owner = .idle ∨ (Deque.abs d).owner = .pushing task := by
          have hown := h.owner d hd
          cases ho : (Deque.abs d).owner with
          | idle => exact .inl rfl
          | pushing t =>
            rw [ho] at hown
            rcases hown with ⟨wid', hc⟩ | ⟨hdrain, -⟩
            · rw [hcall, Option.some.injEq, SubmitPc.pushLocal.injEq] at hc
              rw [hc.2]
              exact .inr rfl
            · exact absurd hdrain (hi.not_drain hon)
          | popping | popped t =>
            rw [ho] at hown
            rw [show s.worker 0 = .pop from hown] at hrun
            cases hrun
        obtain ⟨howner, hstack⟩ := pushStep_stack (hi.deque 0 d hd) ho hp
        have hst : s.stack = StealingDeques.stack d := by
          rw [State.stack, firstStack, hd]
          rfl
        have hst' : firstStack (Function.update s.deque 0 (some d')) =
            StealingDeques.stack d ++ if last then [task] else [] := by
          rw [← hstack]
          simp [firstStack]
        refine h.moveCall hi hrun (p := s.pending) (q := Function.update s.deque 0 (some d')) rfl
          rfl ?_ (fun e he => ?_) ?_ ?_
        · intro pc' hpc'
          split_ifs at hpc'
          cases hpc'
          exact .inr rfl
        · rw [Function.update_self, Option.some.injEq] at he
          subst he
          rw [howner]
          cases last with
          | true => trivial
          | false => exact .inl ⟨wid, by simp⟩
        · rw [hcounted, hst, hst']
          cases last <;> simp [callCounted, SubmitPc.tasks, add_assoc]
        · rw [hwaiting, hst, hst']
          cases last <;> simp [callWaiting, callTask]
      | check task => cases hlocal
      | lock task => cases hlocal
      | addInject task => cases hlocal
      | pushInject task => cases hlocal

theorem keeps_spawn (h : Alone s c) (hi : Inv s) {t : SpawnTree β}
    (hspawn : c.spawn = some (t, c')) (hs : step s (.submit (.worker i) t) = some u) :
    Keeps s u c c' := by
  obtain ⟨htodo, hroots, hcalled⟩ := Client.spawn_eq hspawn
  simp only [step] at hs
  split_ifs at hs with hcan
  cases hs
  obtain ⟨hrun, hnone⟩ : (s.worker i).isRunning = true ∧ s.call (.worker i) = none := by
    simpa [canSubmit] using hcan
  have hon : s.worker i ≠ .off := by
    intro hoff
    rw [hoff] at hrun
    cases hrun
  obtain rfl := h.worker_eq hi hon
  refine h.moveCall hi hrun (p := s.pending) (q := s.deque) hroots hcalled ?_
    (fun d hd => Fits.of_idle ?_) (by rw [hnone]; rfl) ?_
  · rintro pc ⟨⟩
    exact .inl rfl
  · refine hi.idle (fun hpop => ?_) (by simp [hnone]) (fun _ => hi.not_drain hon) hd
    rw [hpop] at hrun
    cases hrun
  · rw [hnone, htodo]
    change s.stack ++ [t] ++ c'.todo = _
    simp [callWaiting]

theorem keeps_finish (h : Alone s c) (hi : Inv s) (hfinish : c.finish = some c')
    (hs : step s (.finish i) = some u) : Keeps s u c c' := by
  obtain ⟨rfl, htodo⟩ := Client.finish_eq hfinish
  cases hw : s.worker i <;> simp only [step, hw, reduceCtorEq] at hs
  cases hcall : s.call (.worker i) <;> simp only [hcall, reduceCtorEq, Option.some.injEq] at hs
  subst hs
  have hon : s.worker i ≠ .off := by simp [hw]
  obtain rfl := h.worker_eq hi hon
  have hopen : closed s.run = false :=
    h.not_closed hi hon (by rw [hw]; simp [WorkerPc.tasks])
  have hcount := h.count
  generalize hpc : (if s.pending = 1 then .exited else .pop : WorkerPc (SpawnTree β)) = pc
  have htasks : pc.tasks = 0 := by
    rw [← hpc]
    split_ifs <;> rfl
  refine ⟨⟨h.one, h.before, h.after, fun _ => htodo, h.sized, h.drained, h.fresh, h.route,
    fun d hd => Fits.of_idle ?_, ?_, fun _ hcl => ?_⟩, rfl⟩
  · have hd' : s.deque 0 = some d := hd
    exact hi.idle (by simp [hw]) (by simp [hcall]) (fun _ => hi.not_drain hon) hd'
  · change s.pending - 1 = (s.stack.length + s.injectQueue.length +
      callCounted (s.call (.outside ())) + callCounted (s.call (.worker 0)) +
      (Function.update s.worker 0 pc 0).tasks.card : ℕ)
    rw [hw] at hcount
    rw [Function.update_self, htasks, Multiset.card_zero]
    simp only [WorkerPc.tasks, Multiset.card_singleton] at hcount
    omega
  · change closed s.run = true at hcl
    rw [hopen] at hcl
    cases hcl

theorem keeps_run (h : Alone s c) (hi : Inv s) {n : ℕ} (hn : n = 1)
    (ho : s.call (.outside ()) = none) (hcall : c.call = some c')
    (hs : step s (.run n) = some u) : Keeps s u c c' := by
  obtain ⟨hc, hroots, hroots', hc', htodo⟩ := Client.call_eq hcall
  obtain ⟨hoff, hnone⟩ := h.outside hi hc
  have hdone : c.todo = [] := h.todo (by rw [hoff]; rfl)
  cases hr : s.run <;> simp only [step, hr, reduceCtorEq] at hs
  split_ifs at hs with hlt
  cases hs
  refine ⟨⟨hn.le, fun hcalled => ?_, fun _ => ⟨hroots', ho⟩, fun _ => htodo.trans hdone,
    (by rintro ⟨⟩), (by rintro ⟨⟩), fun _ => h.fresh (.inl hc), h.route, fun d hd => Fits.of_idle ?_, h.count,
    fun _ hclosed => by cases hclosed⟩, ?_⟩
  · rw [hc'] at hcalled
    cases hcalled
  · have hd' : s.deque 0 = some d := hd
    exact hi.idle (by simp [hoff]) (by simp [hnone]) (by simp [hr]) hd'
  · change s.stack ++ s.injectQueue ++ callWaiting (s.call (.outside ())) ++
      callWaiting (s.call (.worker 0)) ++ c'.todo ++ c'.roots = _
    rw [htodo, hroots']
    simp only [StealingDeques.waiting, hroots]

/-- Each step emits what it takes off the front of the depth-first order of what is left. -/
theorem alone_step {s u : State Unit (SpawnTree β) × Client β} {k : Action Unit Unit}
    (h : Alone s.1 s.2) (hi : Inv s.1) (hs : (scheduled roots).step s k = some u) :
    Alone u.1 u.2 ∧ depthFirstAll (waiting s) =
      (executed s k).toList ++ depthFirstAll (waiting u) := by
  obtain ⟨s, c⟩ := s
  obtain ⟨u, c'⟩ := u
  obtain ⟨a, ha, hstep⟩ := drive_step hs
  have hkeep : executed (s, c) k = none → Keeps s u c c' → Alone u c' ∧
      depthFirstAll (waiting (s, c)) =
        (executed (s, c) k).toList ++ depthFirstAll (waiting (u, c')) := by
    intro hnone hk
    rw [hnone]
    exact ⟨hk.alone, (congrArg depthFirstAll hk.waiting).symm⟩
  cases k with
  | submit t x =>
    cases t with
    | outside o =>
      obtain ⟨⟨t, d⟩, ht, heq⟩ := Option.map_eq_some_iff.mp ha
      obtain ⟨rfl, rfl⟩ := Prod.mk.inj heq
      exact hkeep rfl (keeps_submit h hi ht hstep)
    | worker i =>
      obtain ⟨⟨t, d⟩, ht, heq⟩ := Option.map_eq_some_iff.mp ha
      obtain ⟨rfl, rfl⟩ := Prod.mk.inj heq
      exact hkeep rfl (keeps_spawn h hi ht hstep)
  | call t =>
    obtain ⟨rfl, rfl⟩ := Prod.mk.inj (Option.some.inj ha)
    cases t with
    | outside o => exact hkeep rfl (keeps_outside h hi hstep)
    | worker i => exact hkeep rfl (keeps_call h hi hstep)
  | worker i rng =>
    obtain ⟨rfl, rfl⟩ := Prod.mk.inj (Option.some.inj ha)
    exact worker_order h hi hstep
  | finish i =>
    obtain ⟨d, hd, heq⟩ := Option.map_eq_some_iff.mp ha
    obtain ⟨rfl, rfl⟩ := Prod.mk.inj heq
    exact hkeep rfl (keeps_finish h hi hd hstep)
  | run n =>
    simp only [drive] at ha
    split_ifs at ha with hn
    obtain ⟨d, hd, heq⟩ := Option.map_eq_some_iff.mp ha
    obtain ⟨rfl, rfl⟩ := Prod.mk.inj heq
    exact hkeep rfl (keeps_run h hi hn.1 (by simpa using hn.2) hd hstep)
  | runner =>
    obtain ⟨rfl, rfl⟩ := Prod.mk.inj (Option.some.inj ha)
    exact hkeep rfl (keeps_runner h hi hstep)

end Steps

section Runs
variable {roots : List (SpawnTree β)} {s : State Unit (SpawnTree β) × Client β}
  {tr : List ((State Unit (SpawnTree β) × Client β) × Action Unit Unit)}

theorem alone_init : Alone (machine Unit (SpawnTree β)).init (Client.init roots) where
  one := Nat.zero_le 1
  before _ := rfl
  after h := by cases h
  todo _ := rfl
  sized h := by cases h
  drained h := by cases h
  fresh _ := rfl
  route _ h := by cases h
  owner _ h := by cases h
  count := rfl
  done h := by cases h

theorem settled_step (u : State Unit (SpawnTree β) × Client β) (k : Action Unit Unit)
    (v : State Unit (SpawnTree β) × Client β) (h : Alone u.1 u.2 ∧ Inv u.1)
    (hs : (scheduled roots).step u k = some v) : Alone v.1 v.2 ∧ Inv v.1 := by
  obtain ⟨a, -, hstep⟩ := drive_step hs
  exact ⟨(alone_step h.1 h.2 hs).1, inv_step _ _ _ h.2 hstep⟩

/-- The tasks that have begun, and then those left in depth-first order, are the forest in
depth-first order. -/
theorem executed_order (h : Run (scheduled roots) tr s) :
    log executed tr ++ depthFirstAll (waiting s) = depthFirstAll roots := by
  have horder : log executed tr ++ depthFirstAll (waiting s) =
      depthFirstAll (waiting (scheduled roots).init) :=
    log_order (I := fun u => Alone u.1 u.2 ∧ Inv u.1) ⟨alone_init, inv_init⟩ settled_step
      (fun u k v hu hs => (alone_step hu.1 hu.2 hs).2) h
  exact horder

theorem waiting_of_returned (h : Run (scheduled roots) tr s) (hr : Returned s) :
    waiting s = [] := by
  obtain ⟨halone, hi⟩ : Alone s.1 s.2 ∧ Inv s.1 :=
    Run.invariant (I := fun u => Alone u.1 u.2 ∧ Inv u.1) ⟨alone_init, inv_init⟩ settled_step h
  obtain ⟨hroots, hout⟩ := halone.after hr.1
  obtain ⟨hst, hq, hrun⟩ := halone.empty (halone.done hr.1 (by rw [hr.2]; rfl))
  simp [waiting, hst, hq, hout, hi.quiet 0 hrun, callWaiting, halone.todo hrun, hroots]

end Runs

end TaskScheduler.StealingDeques
