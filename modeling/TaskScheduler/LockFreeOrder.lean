import TaskScheduler.Driven
import TaskScheduler.LockFreeBlocking
import TaskScheduler.LockFreeCompletion
import TaskScheduler.RingSerial
import TaskScheduler.SpawnForest

/-!
# The order in which one worker of LockFreeQueueScheduler executes a forest

A thread submits the roots and calls `run(1)`; every task submits its children while it runs. The
cursors of the ring may wrap.
-/
namespace TaskScheduler.LockFree
open Transition SpawnForest
open SpawnTree (breadthFirst)

variable {β : Type*}

/-- The client of the scheduler: it fills in the tasks that are submitted, and calls `run` once,
with one worker, when the last `submit` has returned. -/
def drive (c : Client β) (s : State Unit Unit (SpawnTree β)) :
    Action Unit Unit Unit → Option (Action Unit Unit (SpawnTree β) × Client β)
  | .submit i _ => c.submit.map fun r => (.submit i r.1, r.2)
  | .spawn w _ => c.spawn.map fun r => (.spawn w r.1, r.2)
  | .access t spurious => some (.access t spurious, c)
  | .worker w => some (.worker w, c.start (started s (.worker w)))
  | .finish w => c.finish.map fun c' => (.finish w, c')
  | .run i crew => if crew = [()] then c.call.map fun c' => (.run i crew, c') else none
  | .runner => some (.runner, c)
  | .destroy | .drain => none

/-- The scheduler with its client. -/
def scheduled (roots : List (SpawnTree β)) :
    Machine (State Unit Unit (SpawnTree β) × Client β) (Action Unit Unit Unit) :=
  (machine Unit Unit (SpawnTree β) kLog2Ring).drive (Client.init roots) drive

/-- The task that begins with this step. -/
def executed (s : State Unit Unit (SpawnTree β) × Client β) (k : Action Unit Unit Unit) :
    Option (SpawnTree β) :=
  (drive s.2 s.1 k).bind fun r => started s.1 r.1

/-- The task whose `submit` begins with this step. -/
def entered (s : State Unit Unit (SpawnTree β) × Client β) (k : Action Unit Unit Unit) :
    Option (SpawnTree β) :=
  (drive s.2 s.1 k).bind fun r => submitted s.1 r.1

/-- `run` has been called and has returned. -/
def Returned (s : State Unit Unit (SpawnTree β) × Client β) : Prop :=
  s.2.called ∧ s.1.run = .idle

/-- The thread that may be inside an operation on the ring. -/
def turn (c : Client β) : Thread Unit Unit := if c.called then .worker () else .outside ()

def WorkerPc.inTask {α : Type*} : WorkerPc α → Bool
  | .running _ | .submitting _ => true
  | _ => false

def RunPc.isIdle {ι ω : Type*} : RunPc ι ω → Bool
  | .idle => true
  | _ => false

/-- `run` is not running, or has seen `pending_` at zero. -/
def RunPc.closed {ι ω : Type*} : RunPc ι ω → Bool
  | .idle | .setShutdown _ _ | .join _ _ _ => true
  | _ => false

/-- What holds with one worker, where `L` is the line of the tasks in the ring. -/
structure Alone (s : State Unit Unit (SpawnTree β)) (c : Client β) (L : List (SpawnTree β)) :
    Prop where
  ring : Ring.Serial (kRingSize kLog2Ring) s.ring (turn c) L
  before : c.called = false → s.run = .idle ∧ s.worker () = .off
  after : c.called = true → c.roots = []
  todo : (s.worker ()).inTask = false → c.todo = []
  count : s.pending = (L.length + (s.worker ()).own.card : ℕ)
  done : c.called = true → s.run.closed = true → s.pending = 0

section Steps
variable {s u : State Unit Unit (SpawnTree β)} {c c' : Client β} {L L' : List (SpawnTree β)}
  {r : Ring.State (Thread Unit Unit) (SpawnTree β)} {pc : WorkerPc (SpawnTree β)}
  {roots : List (SpawnTree β)}

theorem Alone.called (h : Alone s c L) (hw : s.worker () ≠ .off ∨ s.run ≠ .idle) :
    c.called = true := by
  by_contra hc
  obtain ⟨hrun, hoff⟩ := h.before (by simpa using hc)
  exact hw.elim (· hoff) (· hrun)

theorem turn_called (h : c.called = true) : turn c = .worker () := by simp [turn, h]

theorem turn_not_called (h : c.called = false) : turn c = .outside () := by simp [turn, h]

/-- While a task is waiting or not counted off, `run` has not seen `pending_` at zero. -/
theorem Alone.not_closed (h : Alone s c L) (hw : s.worker () ≠ .off ∨ s.run ≠ .idle)
    (hbusy : 0 < L.length + (s.worker ()).own.card) : s.run.closed = false := by
  by_contra hclosed
  have hzero := h.done (h.called hw) (by simpa using hclosed)
  have hcount := h.count
  omega

/-- The worker moves on, with its ring thread. -/
theorem Alone.moveWorker (h : Alone s c L) (hw : s.worker () ≠ .off)
    (hring : Ring.Serial (kRingSize kLog2Ring) r (.worker ()) L')
    (hroots : c'.roots = c.roots) (hcalled : c'.called = c.called)
    (htodo : pc.inTask = false → c'.todo = [])
    (hrun : u.run = s.run) (hcount : u.pending = (L'.length + pc.own.card : ℕ))
    (hdone : s.run.closed = false ∨ u.pending = s.pending) :
    Alone { u.setWorker () pc with ring := r } c' L' where
  ring := by
    rw [turn_called (hcalled.trans (h.called (.inl hw)))]
    exact hring
  before hc := by
    rw [hcalled, h.called (.inl hw)] at hc
    cases hc
  after hc := hroots.trans (h.after (hcalled ▸ hc))
  todo := by simpa [State.setWorker] using htodo
  count := by simpa [State.setWorker] using hcount
  done hc hclosed := by
    change u.run.closed = true at hclosed
    rw [hrun] at hclosed
    rcases hdone with hopen | hsame
    · rw [hopen] at hclosed
      cases hclosed
    · exact hsame.trans (h.done (hcalled ▸ hc) hclosed)

theorem kRingSize_kLog2Ring : kRingSize kLog2Ring = 131072 := rfl

/-- The worker either begins the first task of the line, or moves none. -/
theorem alone_worker (h : Alone s c L) {v : State Unit Unit (SpawnTree β)}
    (he : Effect s (.worker ()) v)
    (hr : ringStep kLog2Ring s.ring (ringLabel s (.worker ())) = some r) :
    ∃ L', L = (started s (.worker ())).toList ++ L' ∧
      (started s (.worker ()) ≠ none → c.todo = [] ∧ c.roots = []) ∧
      Alone { v with ring := r } (c.start (started s (.worker ()))) L' := by
  have hring := h.ring
  have hcount := h.count
  cases he with
  | @take w task hw ht =>
    have hon : s.worker () ≠ .off := by simp [hw]
    have hstart : started s (.worker ()) = some task := by simp only [started, hw, ht]
    rw [turn_called (h.called (.inl hon))] at hring
    simp only [ringLabel, hw, ringStep] at hr
    obtain ⟨q, rfl, hring'⟩ := hring.finish ht hr
    refine ⟨q, by rw [hstart],
      fun _ => ⟨h.todo (by rw [hw]; rfl), h.after (h.called (.inl hon))⟩, ?_⟩
    rw [hstart]
    refine h.moveWorker hon hring' rfl rfl (by rintro ⟨⟩) rfl ?_ (.inl (h.not_closed (.inl hon) ?_))
    · rw [hw] at hcount
      simp [WorkerPc.own] at hcount ⊢
      omega
    · simp
  | @empty w hw ht =>
    have hon : s.worker () ≠ .off := by simp [hw]
    have hstart : started s (.worker ()) = none := by simp only [started, hw, ht]
    rw [turn_called (h.called (.inl hon))] at hring
    simp only [ringLabel, hw, ringStep] at hr
    obtain ⟨q, hq, hring'⟩ := hring.finish ht hr
    obtain rfl : L = q := hq
    refine ⟨L, by rw [hstart]; rfl, fun hne => absurd hstart hne, ?_⟩
    rw [hstart]
    refine h.moveWorker hon hring' rfl rfl (fun _ => h.todo (by rw [hw]; rfl)) rfl ?_ (.inr rfl)
    rw [hw] at hcount
    exact hcount
  | @submitted w task hw ht =>
    have hon : s.worker () ≠ .off := by simp [hw]
    have hstart : started s (.worker ()) = none := by simp only [started, hw]
    rw [turn_called (h.called (.inl hon))] at hring
    simp only [ringLabel, hw, ringStep, Option.some.injEq] at hr
    subst hr
    refine ⟨L, by rw [hstart]; rfl, fun hne => absurd hstart hne, ?_⟩
    rw [hstart]
    refine h.moveWorker hon hring rfl rfl (by rintro ⟨⟩) rfl ?_ (.inr rfl)
    rw [hw] at hcount
    exact hcount
  | @decrement w task hw =>
    have hon : s.worker () ≠ .off := by simp [hw]
    have hstart : started s (.worker ()) = none := by simp only [started, hw]
    rw [turn_called (h.called (.inl hon))] at hring
    simp only [ringLabel, hw, ringStep] at hr
    refine ⟨L, by rw [hstart]; rfl, fun hne => absurd hstart hne, ?_⟩
    rw [hstart]
    refine h.moveWorker hon (hring.dequeue hr) rfl rfl (fun _ => h.todo (by rw [hw]; rfl)) rfl ?_
      (.inl (h.not_closed (.inl hon) (by rw [hw]; simp [WorkerPc.own])))
    have hlen := hring.line.length_le
    rw [kRingSize_kLog2Ring] at hlen
    rw [hw] at hcount
    simp only [WorkerPc.own, Multiset.card_singleton, Multiset.card_zero] at hcount ⊢
    rw [int64_of_lt (by omega) (by omega)]
    omega
  | @exit w hw hs =>
    have hon : s.worker () ≠ .off := by simp [hw]
    have hstart : started s (.worker ()) = none := by simp only [started, hw]
    rw [turn_called (h.called (.inl hon))] at hring
    simp only [ringLabel, hw, hs, if_true, ringStep, Option.some.injEq] at hr
    subst hr
    refine ⟨L, by rw [hstart]; rfl, fun hne => absurd hstart hne, ?_⟩
    rw [hstart]
    refine h.moveWorker hon hring rfl rfl (fun _ => h.todo (by rw [hw]; rfl)) rfl ?_ (.inr rfl)
    rw [hw] at hcount
    exact hcount
  | @retry w hw hs =>
    have hon : s.worker () ≠ .off := by simp [hw]
    have hstart : started s (.worker ()) = none := by simp only [started, hw]
    rw [turn_called (h.called (.inl hon))] at hring
    simp only [ringLabel, hw, hs, Bool.false_eq_true, if_false, ringStep] at hr
    refine ⟨L, by rw [hstart]; rfl, fun hne => absurd hstart hne, ?_⟩
    rw [hstart]
    refine h.moveWorker hon (hring.dequeue hr) rfl rfl (fun _ => h.todo (by rw [hw]; rfl)) rfl ?_
      (.inr rfl)
    rw [hw] at hcount
    exact hcount

/-- A step of `run` moves no task. -/
theorem alone_runner (h : Alone s c L) (hctl : s.Control) {v : State Unit Unit (SpawnTree β)}
    (he : Effect s .runner v)
    (hr : ringStep kLog2Ring s.ring (ringLabel s .runner) = some r) :
    Alone { v with ring := r } c L := by
  have hring := h.ring
  have hcount := h.count
  -- `run` moves on by itself, and leaves `pending_` and the workers alone.
  have hstay : ∀ {run : RunPc Unit Unit} {shut : Bool}, r = s.ring → s.run ≠ .idle →
      (run.closed = true → s.run.closed = true ∨ s.pending = 0) →
      Alone { s with run := run, shutdown := shut, ring := r } c L := by
    intro run shut hsame hrun hclosed
    have hcalled := h.called (.inr hrun)
    subst hsame
    refine ⟨hring, fun hc => ?_, h.after, h.todo, hcount, fun hc hnow => ?_⟩
    · rw [hcalled] at hc
      cases hc
    · exact (hclosed hnow).elim (h.done hc) id
  cases he with
  | @launch i crew rest w hrun =>
    have hcalled := h.called (.inr (by simp [hrun]))
    have hcrew := hctl.crew
    rw [hrun] at hcrew
    have hoff : s.worker () = .off := hcrew.2.2 w (.inr List.mem_cons_self)
    rw [turn_called hcalled] at hring
    simp only [ringLabel, hrun, ringStep] at hr
    refine ⟨?_, fun hc => ?_, h.after, fun _ => h.todo (by rw [hoff]; rfl), ?_, fun _ hclosed => ?_⟩
    · rw [turn_called hcalled]
      exact hring.dequeue hr
    · rw [hcalled] at hc
      cases hc
    · rw [hoff] at hcount
      exact hcount
    · cases hclosed
  | launched hrun =>
    have hsame := ring_same (s := s) hr (by simp only [ringLabel, hrun])
    exact hstay hsame (by simp [hrun]) (by rintro ⟨⟩)
  | spin hrun hp =>
    have hsame := ring_same (s := s) hr (by simp only [ringLabel, hrun])
    exact hstay hsame (by simp [hrun]) .inl
  | zero hrun hp =>
    have hsame := ring_same (s := s) hr (by simp only [ringLabel, hrun])
    exact hstay hsame (by simp [hrun]) fun _ => .inr (by omega)
  | shutdown hrun =>
    have hsame := ring_same (s := s) hr (by simp only [ringLabel, hrun])
    exact hstay hsame (by simp [hrun]) fun _ => .inl (by rw [hrun]; rfl)
  | @join i crew rest w hrun hw =>
    have hsame := ring_same (s := s) hr (by simp only [ringLabel, hrun])
    have hcalled := h.called (.inr (by simp [hrun]))
    subst hsame
    refine ⟨hring, fun hc => ?_, h.after, fun _ => h.todo (by rw [hw]; rfl), ?_, fun hc _ => ?_⟩
    · rw [hcalled] at hc
      cases hc
    · rw [hw] at hcount
      exact hcount
    · exact h.done hc (by rw [hrun]; rfl)
  | ret hrun =>
    have hsame := ring_same (s := s) hr (by simp only [ringLabel, hrun])
    exact hstay hsame (by simp [hrun]) fun _ => .inl (by rw [hrun]; rfl)

/-- An access moves no task past another. -/
theorem alone_access (h : Alone s c L) {t : Thread Unit Unit} {spurious : Bool}
    (hr : Ring.step kLog2Ring s.ring (.access t spurious) = some r) :
    Alone { s with ring := r } c L :=
  ⟨h.ring.access (by decide) (by decide) hr, h.before, h.after, h.todo, h.count, h.done⟩

theorem alone_submit (h : Alone s c L) {t : SpawnTree β} (hsubmit : c.submit = some (t, c'))
    {v : State Unit Unit (SpawnTree β)} (he : Effect s (.submit () t) v)
    (hr : Ring.step kLog2Ring s.ring (.enqueue (.outside ()) t) = some r) :
    Alone { v with ring := r } c' (L ++ [t]) ∧
      L ++ c.todo ++ c.roots = L ++ [t] ++ c'.todo ++ c'.roots := by
  obtain ⟨hc, hroots, hc', htodo⟩ := Client.submit_eq hsubmit
  obtain ⟨hrun, hoff⟩ := h.before hc
  have hdone : c.todo = [] := h.todo (by rw [hoff]; rfl)
  have hring := h.ring
  have hcount := h.count
  have hlen := hring.line.length_le
  rw [kRingSize_kLog2Ring] at hlen
  rw [turn_not_called hc] at hring
  cases he with
  | submit hx =>
    refine ⟨⟨?_, fun _ => ⟨hrun, hoff⟩, fun hcalled => ?_, fun _ => htodo.trans hdone, ?_,
      fun hcalled => ?_⟩, by simp [hroots, htodo, hdone]⟩
    · rw [turn_not_called hc']
      exact hring.enqueue hr
    · rw [hc'] at hcalled
      cases hcalled
    · rw [hoff] at hcount
      change int64 (s.pending + 1) = ((L ++ [t]).length + (s.worker ()).own.card : ℕ)
      rw [hoff, List.length_append, List.length_singleton]
      simp only [WorkerPc.own, Multiset.card_zero] at hcount ⊢
      rw [int64_of_lt (by omega) (by omega)]
      omega
    · rw [hc'] at hcalled
      cases hcalled

theorem alone_spawn (h : Alone s c L) {t : SpawnTree β} (hspawn : c.spawn = some (t, c'))
    {v : State Unit Unit (SpawnTree β)} (he : Effect s (.spawn () t) v)
    (hr : Ring.step kLog2Ring s.ring (.enqueue (.worker ()) t) = some r) :
    Alone { v with ring := r } c' (L ++ [t]) ∧
      L ++ c.todo ++ c.roots = L ++ [t] ++ c'.todo ++ c'.roots := by
  obtain ⟨htodo, hroots, hcalled⟩ := Client.spawn_eq hspawn
  have hring := h.ring
  have hcount := h.count
  have hlen := hring.line.length_le
  rw [kRingSize_kLog2Ring] at hlen
  cases he with
  | @spawn w _ task' hw =>
    have hon : s.worker () ≠ .off := by simp [hw]
    rw [turn_called (h.called (.inl hon))] at hring
    rw [hw] at hcount
    refine ⟨h.moveWorker (u := { s with pending := int64 (s.pending + 1) }) hon (hring.enqueue hr)
      hroots hcalled nofun rfl ?_ (.inl (h.not_closed (.inl hon) ?_)), by simp [hroots, htodo]⟩
    · simp only [WorkerPc.own, Multiset.card_singleton, List.length_append,
        List.length_singleton] at hcount ⊢
      rw [int64_of_lt (by omega) (by omega)]
      omega
    · rw [hw]
      simp [WorkerPc.own]

theorem alone_finish (h : Alone s c L) (hfinish : c.finish = some c')
    {v : State Unit Unit (SpawnTree β)} (he : Effect s (.finish ()) v) : Alone v c' L := by
  obtain ⟨rfl, htodo⟩ := Client.finish_eq hfinish
  have hcount := h.count
  cases he with
  | @finish w task hw =>
    have hon : s.worker () ≠ .off := by simp [hw]
    have hring := h.ring
    rw [turn_called (h.called (.inl hon))] at hring
    rw [hw] at hcount
    exact h.moveWorker (u := s) hon hring rfl rfl (fun _ => htodo) rfl hcount (.inr rfl)

theorem alone_run (h : Alone s c L) (hcall : c.call = some c') {crew : List Unit}
    {v : State Unit Unit (SpawnTree β)} (he : Effect s (.run () crew) v) :
    Alone v c' L ∧ L ++ c.todo ++ c.roots = L ++ c'.todo ++ c'.roots := by
  obtain ⟨hc, hroots, hroots', hc', htodo⟩ := Client.call_eq hcall
  obtain ⟨hrun, hoff⟩ := h.before hc
  have hring := h.ring
  rw [turn_not_called hc] at hring
  cases he with
  | run hr hi hcrew =>
    refine ⟨⟨?_, fun hcalled => ?_, fun _ => hroots', fun _ => ?_, h.count, fun _ hclosed => ?_⟩,
      by rw [hroots, hroots', htodo]⟩
    · exact hring.turn hi _
    · rw [hc'] at hcalled
      cases hcalled
    · exact htodo.trans (h.todo (by rw [hoff]; rfl))
    · cases hclosed

/-- What a step does to the line. -/
structure Advances (s u : State Unit Unit (SpawnTree β) × Client β) (k : Action Unit Unit Unit)
    (L L' : List (SpawnTree β)) : Prop where
  alone : Alone u.1 u.2 L'
  order : breadthFirst (L ++ s.2.todo ++ s.2.roots) =
    (executed s k).toList ++ breadthFirst (L' ++ u.2.todo ++ u.2.roots)
  length : L'.length + (executed s k).toList.length = L.length + (entered s k).toList.length

/-- Each step emits what it takes off the front of the breadth-first order of what is left. -/
theorem alone_step {s u : State Unit Unit (SpawnTree β) × Client β} {k : Action Unit Unit Unit}
    (h : Alone s.1 s.2 L) (hctl : s.1.Control) (hs : (scheduled roots).step s k = some u) :
    ∃ L', Advances s u k L L' := by
  obtain ⟨s, c⟩ := s
  obtain ⟨u, c'⟩ := u
  obtain ⟨a, ha, hstep⟩ := drive_step hs
  obtain ⟨v, r, he, hr, rfl⟩ := step_effect hstep
  -- A step that begins no task and brings at most the task of one `submit`.
  have hmoves : ∀ {L' : List (SpawnTree β)}, started s a = none →
      L'.length = L.length + (submitted s a).toList.length → Alone { v with ring := r } c' L' →
      L ++ c.todo ++ c.roots = L' ++ c'.todo ++ c'.roots →
      Advances (s, c) ({ v with ring := r }, c') k L L' := by
    intro L' hstart hlen halone hline
    have hexec : executed (s, c) k = none := by simp only [executed, ha, Option.bind_some, hstart]
    have henter : entered (s, c) k = submitted s a := by
      simp only [entered, ha, Option.bind_some]
    refine ⟨halone, ?_, ?_⟩
    · rw [hexec]
      exact congrArg breadthFirst hline
    · rw [hexec, henter]
      exact hlen
  cases k with
  | submit i x =>
    obtain ⟨⟨t, d⟩, ht, heq⟩ := Option.map_eq_some_iff.mp ha
    obtain ⟨rfl, rfl⟩ := Prod.mk.inj heq
    obtain ⟨halone, hline⟩ := alone_submit h ht he hr
    exact ⟨_, hmoves rfl (by simp [submitted]) halone hline⟩
  | spawn w x =>
    obtain ⟨⟨t, d⟩, ht, heq⟩ := Option.map_eq_some_iff.mp ha
    obtain ⟨rfl, rfl⟩ := Prod.mk.inj heq
    obtain ⟨halone, hline⟩ := alone_spawn h ht he hr
    exact ⟨_, hmoves rfl (by simp [submitted]) halone hline⟩
  | access t spurious =>
    obtain ⟨rfl, rfl⟩ := Prod.mk.inj (Option.some.inj ha)
    cases he with
    | access => exact ⟨L, hmoves rfl rfl (alone_access h hr) rfl⟩
  | worker w =>
    obtain ⟨rfl, rfl⟩ := Prod.mk.inj (Option.some.inj ha)
    obtain ⟨L', hL, hbegin, halone⟩ := alone_worker h he hr
    refine ⟨L', halone, ?_, ?_⟩
    · rw [hL]
      exact Client.breadthFirst_start L' hbegin
    · rw [hL, List.length_append, Nat.add_comm]
      rfl
  | finish w =>
    obtain ⟨d, hd, heq⟩ := Option.map_eq_some_iff.mp ha
    obtain ⟨rfl, rfl⟩ := Prod.mk.inj heq
    obtain rfl := ring_same (s := s) hr rfl
    obtain ⟨rfl, -⟩ := Client.finish_eq hd
    have halone := alone_finish h hd he
    cases he with
    | finish hw => exact ⟨L, hmoves rfl rfl halone rfl⟩
  | run i crew =>
    simp only [drive] at ha
    split_ifs at ha with hn
    obtain ⟨d, hd, heq⟩ := Option.map_eq_some_iff.mp ha
    obtain ⟨rfl, rfl⟩ := Prod.mk.inj heq
    obtain rfl := ring_same (s := s) hr rfl
    obtain ⟨halone, hline⟩ := alone_run h hd he
    cases he with
    | run hrun hi hc => exact ⟨L, hmoves rfl rfl halone hline⟩
  | runner =>
    obtain ⟨rfl, rfl⟩ := Prod.mk.inj (Option.some.inj ha)
    exact ⟨L, hmoves rfl rfl (alone_runner h hctl he hr) rfl⟩
  | destroy => cases ha
  | drain => cases ha

end Steps

section Runs
variable {roots : List (SpawnTree β)} {s : State Unit Unit (SpawnTree β) × Client β}
  {tr : List ((State Unit Unit (SpawnTree β) × Client β) × Action Unit Unit Unit)}

theorem alone_init :
    Alone (machine Unit Unit (SpawnTree β) kLog2Ring).init (Client.init roots) [] where
  ring := Ring.serial_init (by decide) _
  before _ := ⟨rfl, rfl⟩
  after h := by cases h
  todo _ := rfl
  count := rfl
  done h := by cases h

/-- In every run there is a line of tasks such that the tasks that have begun, and then those left
in breadth-first order, are the forest in breadth-first order. -/
theorem executed_order (h : Run (scheduled roots) tr s) :
    ∃ L, Alone s.1 s.2 L ∧
      log executed tr ++ breadthFirst (L ++ s.2.todo ++ s.2.roots) = breadthFirst roots ∧
      L.length + (log executed tr).length = (log entered tr).length := by
  have hboth : Run (scheduled roots) tr s ∧ ∃ L, Alone s.1 s.2 L ∧
      log executed tr ++ breadthFirst (L ++ s.2.todo ++ s.2.roots) = breadthFirst roots ∧
      L.length + (log executed tr).length = (log entered tr).length := by
    refine Run.history (I := fun tr s => Run (scheduled roots) tr s ∧ ∃ L, Alone s.1 s.2 L ∧
      log executed tr ++ breadthFirst (L ++ s.2.todo ++ s.2.roots) = breadthFirst roots ∧
      L.length + (log executed tr).length = (log entered tr).length)
      ⟨.nil, [], alone_init, rfl, rfl⟩ ?_ h
    rintro tr u k v ⟨hrun, L, halone, horder, hlen⟩ hs
    obtain ⟨L', hadv⟩ := alone_step halone (control_of_run (Run.driven hrun)) hs
    refine ⟨hrun.snoc hs, L', hadv.alone, ?_, ?_⟩
    · rw [log_snoc, List.append_assoc, ← hadv.order, horder]
    · have hstep := hadv.length
      rw [log_snoc, log_snoc, List.length_append, List.length_append]
      omega
  exact hboth.2

/-- Nothing is left when `run` has returned. -/
theorem Alone.returned {L : List (SpawnTree β)} (h : Alone s.1 s.2 L) (hr : Returned s) :
    L ++ s.2.todo ++ s.2.roots = [] := by
  have hzero := h.done hr.1 (by rw [hr.2]; rfl)
  have hcount := h.count
  have hL : L = [] := List.eq_nil_of_length_eq_zero (by omega)
  have hown : (s.1.worker ()).own.card = 0 := by omega
  have hpc : (s.1.worker ()).inTask = false := by
    cases hw : s.1.worker () <;> simp_all [WorkerPc.own, WorkerPc.inTask]
  rw [hL, h.todo hpc, h.after hr.1]
  rfl

/-- A thread that waits for a slot in vain has found the ring full: more tasks wait than it has
slots. -/
theorem Alone.waiting {L : List (SpawnTree β)} (h : Alone s.1 s.2 L) {t : Thread Unit Unit}
    (ht : Waiting kLog2Ring s.1 t) : L.length = kRingSize kLog2Ring + 1 := by
  obtain ⟨pos, task, hpc, hne⟩ := ht
  have hline := h.ring.line
  obtain rfl : t = turn s.2 := by
    by_contra hother
    rw [h.ring.others t hother] at hpc
    cases hpc
  rw [hpc] at hline
  exact hline.full (by decide) hne

end Runs

end TaskScheduler.LockFree
