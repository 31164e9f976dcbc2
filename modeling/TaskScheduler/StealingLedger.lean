import TaskScheduler.StealingOrder
import TaskScheduler.StealingTermination

/-!
# Where the tasks are while the deques are in use

The tasks of a scheduler at any access: in its injection queue, in the lists that its deques
stand for, taken out by a pop that has not returned, run by a worker, or in a `submit` between
the increment of `pending_` and the last access of the push.
-/
namespace TaskScheduler.StealingDeques
open Transition DequeAbstract
open WorkStealing (SubmitPc WorkerPc RunPc asInt u32 restTasks sweepStart victim)

variable {ι α : Type*} {s s' : State ι α} {d d' : Deque.State ℕ α} {i n : ℕ} {t : Thread ι}

section Access

/-- An access takes out of the deque what it returns, and puts in what it publishes. -/
theorem deque_held {a : Deque.Action ℕ α} (h : Deque.Inv d) (hs : Deque.step d a = some d') :
    (Deque.abs d').held + ((Deque.returned d a).toList : Multiset α) =
      (Deque.abs d).held + ((Deque.pushed d a).toList : Multiset α) := by
  have hf := Deque.step_follows h hs
  rw [← Deque.event_returned, ← Deque.event_appended]
  cases he : Deque.event d a with
  | none =>
    rw [he] at hf
    have hsame : Deque.abs d' = Deque.abs d := hf
    rw [hsame]
    rfl
  | some e =>
    rw [he] at hf
    exact step_held hf

/-- The task of a pop in progress is still one of the deque. -/
theorem held_eq (d : Deque.State ℕ α) : (Deque.abs d).held = (stack d : Multiset α) := by
  cases ho : (Deque.abs d).owner <;>
    simp [stack, stackOf, DoubleEnded.held, Call.inHand, ho, add_comm, ← Multiset.coe_add]

theorem pushStep_held {task : α} {last : Bool} (h : Deque.Inv d)
    (ho : (Deque.abs d).owner = .idle ∨ (Deque.abs d).owner = .pushing task)
    (hs : pushStep d task = some (d', last)) :
    (Deque.abs d').held = (Deque.abs d).held + if last then {task} else 0 := by
  obtain ⟨-, hstack⟩ := pushStep_stack h ho hs
  rw [held_eq, held_eq, hstack]
  cases last <;> simp [← Multiset.coe_add]

theorem popStep_held {r : Option (Option α)} (h : Deque.Inv d)
    (ho : ∀ t, (Deque.abs d).owner ≠ .pushing t) (hs : popStep d = some (d', r)) :
    (Deque.abs d').held + (r.join.toList : Multiset α) = (Deque.abs d).held := by
  obtain ⟨hstack, -⟩ := popStep_stack h ho hs
  rw [held_eq, held_eq, hstack, ← Multiset.coe_add]

/-- A thief changes neither what the owner does nor what it holds. -/
theorem steal_call {a : Deque.Action ℕ α} (h : Deque.Inv d) (ha : a = .steal i ∨ a = .thief i)
    (hs : Deque.step d a = some d') : (Deque.abs d').owner = (Deque.abs d).owner := by
  have hf := Deque.step_follows h hs
  have hnone : ∀ e, Deque.event d a = some e → ∃ r, e = .removeFront r := by
    intro e he
    rcases ha with rfl | rfl
    · cases he
    · cases hpc : d.thief i <;> simp only [Deque.event, Deque.thiefEvent, hpc, reduceCtorEq] at he
      split_ifs at he
      exact ⟨_, (Option.some.inj he).symm⟩
  cases he : Deque.event d a with
  | none =>
    rw [he] at hf
    exact congrArg DoubleEnded.owner hf
  | some e =>
    obtain ⟨r, rfl⟩ := hnone e he
    rw [he] at hf
    cases hi : (Deque.abs d).items <;>
      simp only [Deque.Follows, DequeAbstract.step, hi, reduceCtorEq] at hf
    split_ifs at hf
    rw [← Option.some.inj hf]

/-- `steal` returns the first task of the deque, or leaves the deque with all its tasks. -/
theorem stealStep_held {r : Option (Deque.StealResult α)} (h : Deque.Inv d)
    (hs : stealStep d i = some (d', r)) :
    (Deque.abs d').owner = (Deque.abs d).owner ∧
      (Deque.abs d').held + ((r.bind Deque.StealResult.task).toList : Multiset α) =
        (Deque.abs d).held := by
  have h' : ∃ a, Deque.step d a = some d' ∧ (a = .steal i ∨ a = .thief i) ∧
      Deque.stealReturn d a = r := by
    cases hpc : d.thief i <;> simp only [stealStep, hpc, Option.map_eq_some_iff, Prod.mk.injEq] at hs
    all_goals
      obtain ⟨_, hstep, rfl, rfl⟩ := hs
    · exact ⟨_, hstep, .inl rfl, rfl⟩
    all_goals exact ⟨_, hstep, .inr rfl, rfl⟩
  obtain ⟨a, hstep, ha, rfl⟩ := h'
  refine ⟨steal_call h ha hstep, ?_⟩
  have hheld := deque_held h hstep
  have hpushed : Deque.pushed d a = none := by rcases ha with rfl | rfl <;> rfl
  have hreturned : Deque.returned d a = (Deque.stealReturn d a).bind Deque.StealResult.task := by
    rcases ha with rfl | rfl <;> rfl
  rw [hpushed, hreturned] at hheld
  simpa using hheld

end Access

section Tasks

/-- The tasks of a deque, the one that a pop in progress has taken out with them. -/
def dequeTasks (d : Option (Deque.State ℕ α)) : Multiset α := d.elim 0 fun d => (Deque.abs d).held

def stock (n : ℕ) (deque : ℕ → Option (Deque.State ℕ α)) : Multiset α :=
  ∑ i ∈ Finset.range n, dequeTasks (deque i)

/-- The tasks that the workers run. -/
def inHand (n : ℕ) (worker : ℕ → WorkerPc α) : Multiset α :=
  ∑ i ∈ Finset.range n, (worker i).tasks

/-- The threads that submit: the workers and the threads outside. -/
def clients (ι : Type*) [DecidableEq ι] [Fintype ι] (n : ℕ) : Finset (Thread ι) :=
  (Finset.range n).image .worker ∪ Finset.univ.image .outside

def inFlight [DecidableEq ι] [Fintype ι] (n : ℕ) (call : Thread ι → Option (SubmitPc α)) :
    Multiset α :=
  ∑ t ∈ clients ι n, restTasks (call t)

/-- The tasks that the workers hold or can reach. -/
def State.held (s : State ι α) : Multiset α :=
  stock s.numWorkers s.deque + inHand s.numWorkers s.worker

/-- The tasks that are counted in `pending_`. -/
def State.load [DecidableEq ι] [Fintype ι] (s : State ι α) : Multiset α :=
  s.injectQueue + s.held + inFlight s.numWorkers s.call

/-- What a deque takes in and gives out is what the deques take in and give out. -/
theorem stock_move {q : ℕ → Option (Deque.State ℕ α)} {x y : Multiset α} (hi : i < n)
    (hd : q i = some d) (h : (Deque.abs d').held + x = (Deque.abs d).held + y) :
    stock n (Function.update q i (some d')) + x = stock n q + y :=
  Counting.sum_move (w := dequeTasks) (Finset.mem_range.mpr hi) (by rw [hd]; exact h)

theorem stock_of_none {q : ℕ → Option (Deque.State ℕ α)} (h : ∀ i, q i = none) :
    stock n q = 0 :=
  Finset.sum_eq_zero fun i _ => by rw [h i]; rfl

theorem inHand_update (hi : i < n) (w : ℕ → WorkerPc α) (pc : WorkerPc α) :
    inHand n (Function.update w i pc) + (w i).tasks = inHand n w + pc.tasks :=
  Counting.sum_update (Finset.mem_range.mpr hi) w pc WorkerPc.tasks

theorem inHand_update_same {w : ℕ → WorkerPc α} {pc : WorkerPc α} (h : pc.tasks = (w i).tasks) :
    inHand n (Function.update w i pc) = inHand n w :=
  Counting.sum_update_same (w := WorkerPc.tasks) _ h

theorem inHand_of_off {w : ℕ → WorkerPc α} (h : ∀ i, w i = .off) : inHand n w = 0 :=
  Finset.sum_eq_zero fun i _ => by rw [h i]; rfl

variable [DecidableEq ι] [Fintype ι]

theorem mem_clients_outside (o : ι) : Thread.outside o ∈ clients ι n := by
  simp [clients]

theorem mem_clients_worker (hi : i < n) : (Thread.worker i : Thread ι) ∈ clients ι n := by
  simp [clients, hi]

theorem inFlight_update (ht : t ∈ clients ι n) (c : Thread ι → Option (SubmitPc α))
    (rest : Option (SubmitPc α)) :
    inFlight n (Function.update c t rest) + restTasks (c t) = inFlight n c + restTasks rest :=
  Counting.sum_update ht c rest restTasks

theorem inFlight_update_same {c : Thread ι → Option (SubmitPc α)} {rest : Option (SubmitPc α)}
    (h : restTasks rest = restTasks (c t)) :
    inFlight n (Function.update c t rest) = inFlight n c :=
  Counting.sum_update_same (w := restTasks) _ h

/-- Without workers the calls are those of the threads outside. -/
theorem inFlight_of_outside {c : Thread ι → Option (SubmitPc α)} (h : ∀ i, c (.worker i) = none) :
    inFlight n c = ∑ t ∈ Finset.univ.image Thread.outside, restTasks (c t) := by
  refine (Finset.sum_subset Finset.subset_union_right fun t ht hout => ?_).symm
  rcases Finset.mem_union.mp ht with hw | ho
  · obtain ⟨i, _, rfl⟩ := Finset.mem_image.mp hw
    rw [h i]
    rfl
  · exact absurd ho hout

end Tasks

/-- The contexts that `run` has made and not yet destroyed. -/
def Built (s : State ι α) (i : ℕ) : Prop :=
  i < s.numWorkers ∧
    match s.run with
    | .idle | .clear | .resize => False
    | .build j => i < j
    | _ => True

/-- Who is inside the owner operation in progress on deque `i`: its worker, in a pop or in a
`submit`, or `run`, which moves the first task of the injection queue. -/
def Caller (s : State ι α) (i : ℕ) : Call α → Prop
  | .idle => True
  | .pushing task => (∃ wid, s.call (.worker i) = some (.pushLocal wid task)) ∨
      i = 0 ∧ s.run = .drain ∧ ∃ rest, s.injectQueue = task :: rest
  | .popping | .popped _ => s.worker i = .pop

/-- The contexts that exist, and the owner operations in progress in them. -/
structure Contexts (s : State ι α) : Prop where
  unbuilt : ∀ i, ¬ Built s i → s.deque i = none
  owner : ∀ i d, s.deque i = some d → Caller s i (Deque.abs d).owner

theorem Contexts.built (h : Contexts s) (hd : s.deque i = some d) : Built s i := by
  by_contra hb
  rw [h.unbuilt i hb] at hd
  cases hd

/-- No caller is needed where the owner is idle. -/
theorem Caller.of_idle (h : d.owner = .idle) : Caller s i (Deque.abs d).owner := by
  rw [abs_owner_idle h]
  trivial

theorem Caller.not_pushing {c : Call α} (h : Caller s i c) (hi : Inv s) (hw : s.worker i = .pop) :
    ∀ task, c ≠ .pushing task := by
  rintro task rfl
  rcases h with ⟨wid, hc⟩ | ⟨-, hdrain, -⟩
  · rw [hi.quiet i (by rw [hw]; rfl)] at hc
    cases hc
  · exact hi.not_drain (i := i) (by simp [hw]) hdrain

/-- Where no pop is in progress the owner is idle, or in the push that its caller makes. -/
theorem Caller.idle_or_pushing {c : Call α} {task : α} (h : Caller s i c)
    (hw : s.worker i ≠ .pop)
    (hl : ∀ wid x, s.call (.worker i) = some (.pushLocal wid x) → x = task)
    (hq : i = 0 → s.run = .drain → ∀ x rest, s.injectQueue = x :: rest → x = task) :
    c = .idle ∨ c = .pushing task := by
  cases c with
  | idle => exact .inl rfl
  | pushing x =>
    rcases h with ⟨wid, hc⟩ | ⟨h0, hdrain, rest, hrest⟩
    · exact .inr (by rw [hl wid x hc])
    · exact .inr (by rw [hq h0 hdrain x rest hrest])
  | popping | popped x => exact absurd h hw

theorem Contexts.setDeque (h : Contexts s) (hd : s.deque i = some d)
    (ho : Caller s i (Deque.abs d').owner) : Contexts (s.setDeque i d') where
  unbuilt j hj := by
    have hne : j ≠ i := by
      rintro rfl
      exact hj (h.built hd)
    rw [setDeque_deque, Function.update_of_ne hne]
    exact h.unbuilt j hj
  owner j e he := by
    rcases eq_or_ne j i with rfl | hne
    · rw [setDeque_deque, Function.update_self, Option.some.injEq] at he
      exact he ▸ ho
    · rw [setDeque_deque, Function.update_of_ne hne] at he
      exact h.owner j e he

/-- A step that leaves the deques where they are, and the callers of the operations in progress
inside them. -/
theorem Contexts.mono {m : State ι α} (h : Contexts s) (hb : ∀ i, Built s i → Built m i)
    (hd : m.deque = s.deque)
    (hw : ∀ i, s.worker i = .pop → m.worker i = .pop ∨ ∀ d, s.deque i = some d → d.owner = .idle)
    (hl : ∀ i wid task, s.call (.worker i) = some (.pushLocal wid task) →
      m.call (.worker i) = s.call (.worker i) ∨ ∀ d, s.deque i = some d → d.owner = .idle)
    (hq : s.run = .drain → ∀ task rest, s.injectQueue = task :: rest →
      m.run = .drain ∧ ∃ rest', m.injectQueue = task :: rest') : Contexts m where
  unbuilt i hi := hd ▸ h.unbuilt i fun hi' => hi (hb i hi')
  owner i d he := by
    rw [hd] at he
    by_cases hidle : d.owner = .idle
    · exact .of_idle hidle
    · have hc := h.owner i d he
      have hpop : s.worker i = .pop → m.worker i = .pop := fun hi =>
        (hw i hi).resolve_right fun hall => hidle (hall d he)
      cases ho : (Deque.abs d).owner with
      | idle => trivial
      | pushing task =>
        rw [ho] at hc
        rcases hc with ⟨wid, hcall⟩ | ⟨h0, hdrain, rest, hrest⟩
        · have hsame := (hl i wid task hcall).resolve_right fun hall => hidle (hall d he)
          exact .inl ⟨wid, hsame.trans hcall⟩
        · obtain ⟨hr, rest', hrest'⟩ := hq hdrain task rest hrest
          exact .inr ⟨h0, hr, rest', hrest'⟩
      | popping | popped x =>
        rw [ho] at hc
        exact hpop hc

theorem Contexts.setWorker (h : Contexts s) {pc : WorkerPc α}
    (ho : s.worker i = .pop → pc = .pop ∨ ∀ d, s.deque i = some d → d.owner = .idle) :
    Contexts (s.setWorker i pc) := by
  refine h.mono (fun _ hb => hb) rfl (fun j hj => ?_) (fun _ _ _ _ => .inl rfl)
    fun hr task rest hq => ⟨hr, rest, hq⟩
  rcases eq_or_ne j i with rfl | hne
  · exact (ho hj).imp_left fun hpc => (Function.update_self _ _ _).trans hpc
  · exact .inl ((Function.update_of_ne hne _ _).trans hj)

theorem Contexts.setCall [DecidableEq ι] (h : Contexts s) {rest : Option (SubmitPc α)}
    (hl : ∀ i wid task, t = .worker i → s.call t = some (.pushLocal wid task) →
      rest = s.call t ∨ ∀ d, s.deque i = some d → d.owner = .idle) : Contexts (s.setCall t rest) := by
  refine h.mono (fun _ hb => hb) rfl (fun _ hw => .inl hw) (fun j wid task hj => ?_)
    fun hr task rest hq => ⟨hr, rest, hq⟩
  rcases eq_or_ne (Thread.worker j) t with rfl | hne
  · rcases hl j wid task rfl hj with rfl | hidle
    · exact .inl (Function.update_self _ _ _)
    · exact .inr hidle
  · exact .inl (Function.update_of_ne hne _ _)

/-- An access to the members beside the deques. -/
theorem Contexts.beside (h : Contexts s) (mu : Bool) (p : ℤ) (q : List α) :
    Contexts { s with injectMu := mu, pending := p, injectQueue := s.injectQueue ++ q } :=
  h.mono (fun _ hb => hb) rfl (fun _ hw => .inl hw) (fun _ _ _ _ => .inl rfl)
    fun hr task rest hq => ⟨hr, rest ++ q, by simp [hq]⟩

/-- A worker runs no task when the workers hold none. -/
theorem not_running_of_held (hz : s.held = 0) (hi : i < s.numWorkers) :
    (s.worker i).isRunning = false := by
  have hhand : inHand s.numWorkers s.worker = 0 := (add_eq_zero.mp hz).2
  have h0 := Finset.sum_eq_zero_iff.mp hhand i (Finset.mem_range.mpr hi)
  cases hpc : s.worker i <;> simp_all [WorkerPc.tasks, WorkerPc.isRunning]

section Steps
variable [DecidableEq ι] [Fintype ι]

/-- A thread in a `submit` is one of the clients. -/
theorem Inv.mem_clients (h : Inv s) {pc : SubmitPc α} (hc : s.call t = some pc) :
    t ∈ clients ι s.numWorkers := by
  cases t with
  | outside o => exact mem_clients_outside o
  | worker i =>
    have hrun : (s.worker i).isRunning = true := by
      by_contra hr
      rw [h.quiet i (by simpa using hr)] at hc
      cases hc
    refine mem_clients_worker (h.lt fun hoff => ?_)
    rw [hoff] at hrun
    cases hrun

/-- What a step does to the contexts, to the tasks and to the counter. -/
structure Moves (s s' : State ι α) (a : Action ι α) : Prop where
  contexts : Contexts s'
  tasks : s'.load + ((completed s a).toList : Multiset α) =
    s.load + ((submitted s a).toList : Multiset α)
  pending : s'.pending + (completed s a).toList.length =
    s.pending + (submitted s a).toList.length
  settled : (s.run.settled → s.held = 0) → s.pending = s.load.card → s'.run.settled → s'.held = 0

/-- A step that neither counts in nor counts off. -/
theorem Moves.of_load {m : State ι α} {a : Action ι α} (hx : Contexts m) (hload : m.load = s.load)
    (hp : m.pending = s.pending) (hc : completed s a = none) (hs : submitted s a = none)
    (hheld : m.run.settled → m.held = s.held ∧ (s.run.settled ∨ s.pending ≤ 0)) :
    Moves s m a := by
  refine ⟨hx, by rw [hload, hc, hs], by rw [hp, hc, hs], fun hset hpend hrun => ?_⟩
  obtain ⟨hsame, hwas⟩ := hheld hrun
  rw [hsame]
  rcases hwas with hwas | hle
  · exact hset hwas
  · have hzero : s.load = 0 := Multiset.card_eq_zero.mp (by omega)
    exact (add_eq_zero.mp (add_eq_zero.mp hzero).1).2

theorem submit_moves (h : Contexts s) {task : α} (hs : step s (.submit t task) = some s') :
    Moves s s' (.submit t task) := by
  simp only [step] at hs
  split_ifs at hs with hcan
  cases hs
  have hnone : s.call t = none := by
    cases t <;> simp_all [canSubmit]
  refine .of_load (h.setCall fun i wid x _ hc => ?_) ?_ rfl rfl rfl fun hrun => ⟨rfl, .inl hrun⟩
  · rw [hnone] at hc
    cases hc
  · have hsame : restTasks (some (.check task)) = restTasks (s.call t) := by rw [hnone]; rfl
    exact congrArg (((s.injectQueue : Multiset α) + s.held) + ·) (inFlight_update_same hsame)

omit [DecidableEq ι] [Fintype ι] in
theorem submitted_call {pc : SubmitPc α} (hc : s.call t = some pc) :
    ((submitted s (.call t)).toList : Multiset α) = pc.counted := by
  simp only [submitted, hc]
  cases pc <;> simp [SubmitPc.counted]

/-- An access of a `submit` to the members beside the deques. -/
theorem Moves.of_call (h : Contexts s) (hi : Inv s) {pc : SubmitPc α} {rest : Option (SubmitPc α)}
    {mu : Bool} {p : ℤ} {q : List α} (hc : s.call t = some pc)
    (hpc : ∀ wid task, pc ≠ .pushLocal wid task) (hp : p = s.pending + pc.counted.card)
    (htasks : (q : Multiset α) + restTasks rest = pc.tasks + pc.counted) :
    Moves s ({ s with injectMu := mu, pending := p, injectQueue := s.injectQueue ++ q }.setCall t
      rest) (.call t) := by
  refine ⟨(h.beside mu p q).setCall fun i wid task _ hl => ?_, ?_, ?_, fun hset _ hrun => hset hrun⟩
  · have hl' : s.call t = some (.pushLocal wid task) := hl
    rw [hc, Option.some.injEq] at hl'
    exact absurd hl' (hpc wid task)
  · have hflight := inFlight_update (hi.mem_clients hc) s.call rest
    rw [hc] at hflight
    rw [submitted_call hc]
    change ((s.injectQueue ++ q : List α) : Multiset α) + s.held +
      inFlight s.numWorkers (Function.update s.call t rest) + 0 =
      s.injectQueue + s.held + inFlight s.numWorkers s.call + pc.counted
    apply add_right_cancel (b := pc.tasks)
    rw [← Multiset.coe_add]
    calc (s.injectQueue + q : Multiset α) + s.held +
          inFlight s.numWorkers (Function.update s.call t rest) + 0 + pc.tasks
        = s.injectQueue + q + s.held +
          (inFlight s.numWorkers (Function.update s.call t rest) + restTasks (some pc)) := by
          rw [add_zero, add_assoc]
          rfl
      _ = s.injectQueue + s.held + inFlight s.numWorkers s.call + (q + restTasks rest) := by
          rw [hflight]
          abel
      _ = s.injectQueue + s.held + inFlight s.numWorkers s.call + pc.counted + pc.tasks := by
          rw [htasks]
          abel
  · have hcard : (submitted s (.call t)).toList.length = pc.counted.card := by
      rw [← submitted_call hc, Multiset.coe_card]
    rw [hcard]
    simpa [completed] using hp

theorem push_moves (h : Contexts s) (hi : Inv s) {wid : ℤ} {task : α} {last : Bool}
    (hc : s.call t = some (.pushLocal wid task)) (hd : s.deque wid.toNat = some d)
    (hp : pushStep d task = some (d', last)) :
    Moves s ((s.setDeque wid.toNat d').setCall t
      (if last then none else some (.pushLocal wid task))) (.call t) := by
  obtain ⟨i, rfl, hwid, hrun⟩ := hi.local_worker hc rfl
  rw [hwid] at hd ⊢
  have hon : s.worker i ≠ .off := by
    intro hoff
    rw [hoff] at hrun
    cases hrun
  have hlt := hi.lt hon
  have ho : (Deque.abs d).owner = .idle ∨ (Deque.abs d).owner = .pushing task := by
    refine (h.owner i d hd).idle_or_pushing (fun hpop => ?_) (fun wid' x hl => ?_)
      fun _ hdrain => absurd hdrain (hi.not_drain hon)
    · rw [hpop] at hrun
      cases hrun
    · rw [hc] at hl
      cases hl
      rfl
  obtain ⟨howner, -⟩ := pushStep_stack (hi.deque i d hd) ho hp
  have hheld := pushStep_held (hi.deque i d hd) ho hp
  have hcaller : Caller s i (Deque.abs d').owner := by
    rw [howner]
    cases last with
    | true => trivial
    | false => exact .inl ⟨wid, hc⟩
  refine ⟨(h.setDeque hd hcaller).setCall fun j wid' x hj hl => ?_, ?_, ?_, fun hset _ hr => ?_⟩
  · cases hj
    have hl' : s.call (.worker i) = some (.pushLocal wid' x) := hl
    rw [hc] at hl'
    cases hl'
    cases last with
    | false => exact .inl hc.symm
    | true =>
      right
      intro e he
      rw [setDeque_deque, Function.update_self, Option.some.injEq] at he
      exact he ▸ owner_idle howner
  · have hstock : stock s.numWorkers (Function.update s.deque i (some d')) =
        stock s.numWorkers s.deque + if last then {task} else 0 := by
      simpa using stock_move (x := 0) hlt hd (by simpa using hheld)
    have hflight := inFlight_update (hi.mem_clients hc) s.call
      (if last then none else some (.pushLocal wid task))
    rw [hc] at hflight
    have hsub : submitted s (.call (.worker i)) = none := by simp only [submitted, hc]
    have hone : (if last then {task} else 0) +
        restTasks (if last then none else some (SubmitPc.pushLocal wid task)) = {task} := by
      cases last <;> simp [restTasks, SubmitPc.tasks]
    rw [hsub]
    change (s.injectQueue : Multiset α) + (stock s.numWorkers (Function.update s.deque i (some d')) +
      inHand s.numWorkers s.worker) + inFlight s.numWorkers (Function.update s.call (.worker i) _) +
      0 = s.injectQueue + (stock s.numWorkers s.deque + inHand s.numWorkers s.worker) +
      inFlight s.numWorkers s.call + 0
    apply add_right_cancel (b := {task})
    calc (s.injectQueue : Multiset α) + (stock s.numWorkers (Function.update s.deque i (some d')) +
          inHand s.numWorkers s.worker) +
          inFlight s.numWorkers (Function.update s.call (.worker i) _) + 0 + {task}
        = s.injectQueue + (stock s.numWorkers (Function.update s.deque i (some d')) +
          inHand s.numWorkers s.worker) +
          (inFlight s.numWorkers (Function.update s.call (.worker i) _) +
            restTasks (some (.pushLocal wid task))) := by
          rw [add_zero, add_assoc]
          rfl
      _ = s.injectQueue + (stock s.numWorkers s.deque + inHand s.numWorkers s.worker) +
          inFlight s.numWorkers s.call + ((if last then {task} else 0) +
            restTasks (if last then none else some (.pushLocal wid task))) := by
          rw [hflight, hstock]
          abel
      _ = _ := by rw [hone, add_zero]
  · simp [submitted, completed, hc]
  · have hidle := not_running_of_held (hset hr) hlt
    rw [hrun] at hidle
    cases hidle

theorem call_moves (h : Contexts s) (hi : Inv s) (hs : step s (.call t) = some s') :
    Moves s s' (.call t) := by
  cases hc : s.call t with
  | none => simp [step, hc] at hs
  | some pc =>
    simp only [step, hc, Option.map_eq_some_iff, Prod.exists] at hs
    obtain ⟨u, rest, hu, rfl⟩ := hs
    have hbeside : ∀ (mu : Bool) (p : ℤ) (q : List α), (∀ wid task, pc ≠ .pushLocal wid task) →
        { s with injectMu := mu, pending := p, injectQueue := s.injectQueue ++ q } = u →
        p = s.pending + pc.counted.card →
        (q : Multiset α) + restTasks rest = pc.tasks + pc.counted →
        Moves s (u.setCall t rest) (.call t) := by
      intro mu p q hpc hsame hp htasks
      subst hsame
      exact .of_call h hi hc hpc hp htasks
    cases pc with
    | check task =>
      simp only [submitStep] at hu
      split_ifs at hu <;> cases hu <;>
        exact hbeside s.injectMu s.pending [] (by simp) (by simp) (by simp [SubmitPc.counted])
          (by simp [restTasks, SubmitPc.tasks, SubmitPc.counted])
    | addLocal wid task =>
      cases hu
      exact hbeside _ _ [] (by simp) (by rw [List.append_nil]) (by simp [SubmitPc.counted])
        (by simp [restTasks, SubmitPc.tasks, SubmitPc.counted])
    | pushLocal wid task =>
      simp only [submitStep, Option.bind_eq_some_iff, Option.map_eq_some_iff, Prod.mk.injEq] at hu
      obtain ⟨d, hd, ⟨d', last⟩, hp, rfl, rfl⟩ := hu
      exact push_moves h hi hc hd hp
    | lock task =>
      simp only [submitStep] at hu
      split_ifs at hu
      cases hu
      exact hbeside _ _ [] (by simp) (by rw [List.append_nil]) (by simp [SubmitPc.counted])
        (by simp [restTasks, SubmitPc.tasks, SubmitPc.counted])
    | addInject task =>
      cases hu
      exact hbeside _ _ [] (by simp) (by rw [List.append_nil]) (by simp [SubmitPc.counted])
        (by simp [restTasks, SubmitPc.tasks, SubmitPc.counted])
    | pushInject task =>
      cases hu
      exact hbeside _ _ [task] (by simp) rfl (by simp [SubmitPc.counted])
        (by simp [restTasks, SubmitPc.tasks, SubmitPc.counted])

/-- A step of a worker leaves the tasks of the scheduler alone when what comes out of a deque is
the task that it runs next. -/
theorem worker_load {u : State ι α} {pc : WorkerPc α} (hlt : i < s.numWorkers)
    (hrun : (s.worker i).isRunning = false) (hn : u.numWorkers = s.numWorkers)
    (hq : u.injectQueue = s.injectQueue) (hw : u.worker = s.worker) (hc : u.call = s.call)
    (hstock : stock s.numWorkers u.deque + pc.tasks = stock s.numWorkers s.deque) :
    (u.setWorker i pc).held = s.held ∧ (u.setWorker i pc).load = s.load := by
  have hidle : (s.worker i).tasks = 0 := by
    cases hpc : s.worker i <;> simp_all [WorkerPc.isRunning, WorkerPc.tasks]
  have hhand := inHand_update hlt s.worker pc
  rw [hidle, add_zero] at hhand
  have hheld : (u.setWorker i pc).held = s.held := by
    simp only [State.held, setWorker_numWorkers, setWorker_deque, setWorker_worker, hn, hw, hhand]
    rw [← hstock]
    abel
  refine ⟨hheld, ?_⟩
  simp only [State.load, hheld, setWorker_injectQueue, setWorker_numWorkers, setWorker_call, hq,
    hn, hc]

theorem worker_moves (h : Contexts s) (hi : Inv s) {rng : ℕ}
    (hs : step s (.worker i rng) = some s') : Moves s s' (.worker i rng) := by
  simp only [step, Option.map_eq_some_iff, Prod.exists] at hs
  obtain ⟨u, pc', hu, rfl⟩ := hs
  have hmoves : s.worker i ≠ .off → (s.worker i).isRunning = false → u.run = s.run →
      u.pending = s.pending → u.numWorkers = s.numWorkers → u.injectQueue = s.injectQueue →
      u.worker = s.worker → u.call = s.call → Contexts (u.setWorker i pc') →
      stock s.numWorkers u.deque + pc'.tasks = stock s.numWorkers s.deque →
      Moves s (u.setWorker i pc') (.worker i rng) := by
    intro hon hrun hr hp hn hq hw hc hx hstock
    obtain ⟨hheld, hload⟩ := worker_load (hi.lt hon) hrun hn hq hw hc hstock
    refine .of_load hx hload hp rfl rfl fun hset => ⟨hheld, .inl ?_⟩
    rw [← hr]
    exact hset
  -- A step outside the deques, to a point that is not in a task.
  have hstill : s.worker i ≠ .off → (s.worker i).isRunning = false → s.worker i ≠ .pop → s = u →
      pc'.tasks = 0 → Moves s (u.setWorker i pc') (.worker i rng) := by
    intro hon hrun hpop hsame hpc
    subst hsame
    exact hmoves hon hrun rfl rfl rfl rfl rfl rfl (h.setWorker fun hw => absurd hw hpop)
      (by rw [hpc, add_zero])
  cases hw : s.worker i with
  | start =>
    rw [hw] at hu
    cases hu
    exact hstill (by simp [hw]) (by rw [hw]; rfl) (by simp [hw]) rfl rfl
  | pop =>
    have hon : s.worker i ≠ .off := by simp [hw]
    simp only [hw, workerStep, Option.bind_eq_some_iff, Option.map_eq_some_iff, Prod.mk.injEq] at hu
    obtain ⟨d, hd, ⟨d', r⟩, hp, rfl, rfl⟩ := hu
    have hpushing := (h.owner i d hd).not_pushing hi hw
    have hheld := popStep_held (hi.deque i d hd) hpushing hp
    have htasks : (afterPop r).tasks = (r.join.toList : Multiset α) := by
      rcases r with _ | _ | task <;> rfl
    have hcaller : Caller s i (Deque.abs d').owner := by
      obtain ⟨-, hnot⟩ := popStep_stack (hi.deque i d hd) hpushing hp
      cases ho : (Deque.abs d').owner with
      | idle => trivial
      | pushing task => exact absurd ho (hnot task)
      | popping | popped task => exact hw
    refine hmoves hon (by rw [hw]; rfl) rfl rfl rfl rfl rfl rfl
      ((h.setDeque hd hcaller).setWorker fun _ => ?_) ?_
    · cases r with
      | none => exact .inl rfl
      | some r =>
        right
        intro e he
        rw [setDeque_deque, Function.update_self, Option.some.injEq] at he
        exact he ▸ (popStep_spec hp).2 (by simp)
    · rw [htasks]
      simpa using stock_move (y := 0) (hi.lt hon) hd (by simpa using hheld)
  | steal start attempt =>
    have hon : s.worker i ≠ .off := by simp [hw]
    simp only [hw, workerStep] at hu
    split_ifs at hu
    · simp only [Option.bind_eq_some_iff, Option.map_eq_some_iff, Prod.mk.injEq] at hu
      obtain ⟨d, hd, ⟨d', r⟩, hp, rfl, rfl⟩ := hu
      obtain ⟨howner, hheld⟩ := stealStep_held (hi.deque _ d hd) hp
      have htasks : (afterSteal start attempt r).tasks =
          ((r.bind Deque.StealResult.task).toList : Multiset α) := by
        rcases r with _ | ⟨_ | task, empty⟩ <;> rfl
      refine hmoves hon (by rw [hw]; rfl) rfl rfl rfl rfl rfl rfl
        ((h.setDeque hd (howner ▸ h.owner _ d hd)).setWorker fun hpop => ?_) ?_
      · have hpop' : s.worker i = .pop := hpop
        rw [hw] at hpop'
        cases hpop'
      · rw [htasks]
        simpa using stock_move (y := 0) (h.built hd).1 hd (by simpa using hheld)
    · cases hu
      exact hstill hon (by rw [hw]; rfl) (by simp [hw]) rfl rfl
  | checkPending =>
    rw [hw] at hu
    cases hu
    refine hstill (by simp [hw]) (by rw [hw]; rfl) (by simp [hw]) rfl ?_
    split_ifs <;> rfl
  | checkShutdown =>
    rw [hw] at hu
    cases hu
    refine hstill (by simp [hw]) (by rw [hw]; rfl) (by simp [hw]) rfl ?_
    split_ifs <;> rfl
  | pick =>
    rw [hw] at hu
    cases hu
    refine hstill (by simp [hw]) (by rw [hw]; rfl) (by simp [hw]) rfl ?_
    split_ifs <;> rfl
  | _ => simp [hw, workerStep] at hu

theorem finish_moves (h : Contexts s) (hi : Inv s) (hs : step s (.finish i) = some s') :
    Moves s s' (.finish i) := by
  cases hw : s.worker i <;> simp only [step, hw, reduceCtorEq] at hs
  rename_i task
  cases hc : s.call (.worker i) <;> simp only [hc, reduceCtorEq, Option.some.injEq] at hs
  subst hs
  have hlt : i < s.numWorkers := hi.lt (by simp [hw])
  have hdone : completed s (.finish i) = some task := by simp only [completed, hw]
  have hzero : (if s.pending = 1 then WorkerPc.exited else .pop : WorkerPc α).tasks = 0 := by
    split_ifs <;> rfl
  have hhand := inHand_update hlt s.worker
    (if s.pending = 1 then WorkerPc.exited else .pop)
  rw [hzero, add_zero, hw] at hhand
  have hnot : s.worker i ≠ .pop := by simp [hw]
  refine ⟨h.mono (fun _ hb => hb) rfl (fun j hj => .inl ?_) (fun _ _ _ _ => .inl rfl)
    fun hr task rest hq => ⟨hr, rest, hq⟩, ?_, ?_, fun hset _ hrun => ?_⟩
  · have hne : j ≠ i := by
      rintro rfl
      exact hnot hj
    exact (Function.update_of_ne hne _ _).trans hj
  · rw [hdone]
    change (s.injectQueue : Multiset α) + (stock s.numWorkers s.deque +
      inHand s.numWorkers (Function.update s.worker i _)) + inFlight s.numWorkers s.call + {task} =
      s.injectQueue + (stock s.numWorkers s.deque + inHand s.numWorkers s.worker) +
      inFlight s.numWorkers s.call + 0
    rw [← hhand]
    simp only [WorkerPc.tasks]
    abel
  · simp [hdone, submitted]
  · have hidle := not_running_of_held (hset hrun) hlt
    rw [hw] at hidle
    cases hidle

/-- Without contexts and workers the tasks are in the injection queue and in the calls of the
threads outside. -/
theorem load_of_idle (hi : Inv s) (hd : ∀ i, s.deque i = none) (hoff : ∀ i, s.worker i = .off) :
    s.held = 0 ∧ s.load = s.injectQueue +
      ∑ t ∈ Finset.univ.image Thread.outside, restTasks (s.call t) := by
  have hheld : s.held = 0 := by
    rw [State.held, stock_of_none hd, inHand_of_off hoff, add_zero]
  refine ⟨hheld, ?_⟩
  rw [State.load, hheld, add_zero,
    inFlight_of_outside fun i => hi.quiet i (by rw [hoff i]; rfl)]

theorem run_moves (h : Contexts s) (hi : Inv s) (hs : step s (.run n) = some s') :
    Moves s s' (.run n) := by
  have hi' := inv_step _ _ _ hi hs
  cases hr : s.run <;> simp only [step, hr, reduceCtorEq] at hs
  split_ifs at hs
  cases hs
  have hd : ∀ i, s.deque i = none := fun i => h.unbuilt i (by simp [Built, hr])
  have hoff : ∀ i, s.worker i = .off := fun i => hi.off i (by simp [Active, hr])
  refine .of_load ⟨fun i _ => hd i, fun i d he => ?_⟩ ?_ rfl rfl rfl fun hset => ?_
  · have he' : s.deque i = some d := he
    rw [hd i] at he'
    cases he'
  · rw [(load_of_idle hi hd hoff).2]
    exact (load_of_idle hi' hd hoff).2
  · cases hset

/-- A step of `run` that leaves the contexts and the workers where they are. -/
theorem runner_still {m : State ι α} (h : Contexts s) (hq : m.injectQueue = s.injectQueue)
    (hp : m.pending = s.pending) (hn : m.numWorkers = s.numWorkers) (hd : m.deque = s.deque)
    (hw : m.worker = s.worker) (hc : m.call = s.call) (hb : ∀ i, Built s i → Built m i)
    (hdrain : s.run = .drain → s.injectQueue = [])
    (hset : m.run.settled → s.run.settled ∨ s.pending ≤ 0) : Moves s m .runner := by
  refine .of_load (h.mono hb hd (fun i hi => .inl (hw ▸ hi)) (fun _ _ _ _ => .inl (hc ▸ rfl))
    fun hr task rest hcons => ?_) ?_ hp rfl rfl fun hr => ⟨?_, hset hr⟩
  · rw [hdrain hr] at hcons
    cases hcons
  · simp only [State.load, State.held, hq, hn, hd, hw, hc]
  · simp only [State.held, hn, hd, hw]

theorem drain_moves (h : Contexts s) (hi : Inv s) {task : α} {rest : List α} {last : Bool}
    (hr : s.run = .drain) (hq : s.injectQueue = task :: rest) (hd : s.deque 0 = some d)
    (hp : pushStep d task = some (d', last)) :
    Moves s { s.setDeque 0 d' with injectQueue := if last then rest else task :: rest }
      .runner := by
  have hoff : ∀ i, s.worker i = .off := fun i => hi.off i (by simp [Active, hr])
  have ho : (Deque.abs d).owner = .idle ∨ (Deque.abs d).owner = .pushing task := by
    refine (h.owner 0 d hd).idle_or_pushing (by simp [hoff]) (fun wid x hl => ?_)
      fun _ _ x rest' hx => ?_
    · rw [hi.quiet 0 (by rw [hoff 0]; rfl)] at hl
      cases hl
    · rw [hq] at hx
      cases hx
      rfl
  obtain ⟨howner, -⟩ := pushStep_stack (hi.deque 0 d hd) ho hp
  have hheld := pushStep_held (hi.deque 0 d hd) ho hp
  have hstock : stock s.numWorkers (Function.update s.deque 0 (some d')) =
      stock s.numWorkers s.deque + if last then {task} else 0 := by
    simpa using stock_move (x := 0) (h.built hd).1 hd (by simpa using hheld)
  have hline : ((if last then rest else task :: rest : List α) : Multiset α) +
      (if last then {task} else 0) = s.injectQueue := by
    rw [hq, ← Multiset.cons_coe, ← Multiset.singleton_add]
    cases last with
    | false =>
      rw [if_neg Bool.false_ne_true, if_neg Bool.false_ne_true, add_zero]
      rfl
    | true =>
      rw [if_pos rfl, if_pos rfl, add_comm]
  refine .of_load ⟨fun i hb => ?_, fun i e he => ?_⟩ ?_ rfl rfl rfl fun hset => ?_
  · have hne : i ≠ 0 := by
      rintro rfl
      exact hb (h.built hd)
    exact (Function.update_of_ne hne _ _).trans (h.unbuilt i hb)
  · rcases eq_or_ne i 0 with rfl | hne
    · have hself : Function.update s.deque 0 (some d') 0 = some e := he
      rw [Function.update_self, Option.some.injEq] at hself
      rw [← hself, howner]
      cases last with
      | true => trivial
      | false => exact .inr ⟨rfl, hr, rest, rfl⟩
    · have he' : s.deque i = some e := (Function.update_of_ne hne _ _).symm.trans he
      have hcaller := h.owner i e he'
      refine .of_idle (hi.idle (by simp [hoff]) (fun wid x hl => ?_) (fun h0 => absurd h0 hne) he')
      rw [hi.quiet i (by rw [hoff i]; rfl)] at hl
      cases hl
  · change ((if last then rest else task :: rest : List α) : Multiset α) +
      (stock s.numWorkers (Function.update s.deque 0 (some d')) + inHand s.numWorkers s.worker) +
      inFlight s.numWorkers s.call = s.injectQueue + s.held + inFlight s.numWorkers s.call
    rw [hstock, ← hline, State.held]
    abel
  · have hset' : s.run.settled := hset
    rw [hr] at hset'
    cases hset'

theorem runner_moves (h : Contexts s) (hi : Inv s) (hset : s.run.settled → s.held = 0)
    (hs : step s .runner = some s') : Moves s s' .runner := by
  have hi' := inv_step _ _ _ hi hs
  simp only [step] at hs
  -- Before the deques exist, and after the last of them is gone.
  have hclear : ∀ m : State ι α, Inv m → (∀ i, s.worker i = .off) → s.held = 0 →
      m.injectQueue = s.injectQueue → m.pending = s.pending → m.numWorkers = s.numWorkers →
      m.worker = s.worker → m.call = s.call → (∀ i, m.deque i = none) → m.run.settled = false →
      Moves s m .runner := by
    intro m hm hoff hz hq hp hn hw hc hd hopen
    have hheld := (load_of_idle hm hd fun i => hw ▸ hoff i).1
    refine .of_load ⟨fun i _ => hd i, fun i d he => ?_⟩ ?_ hp rfl rfl fun hr => ?_
    · rw [hd i] at he
      cases he
    · simp only [State.load, hheld, hz, hq, hn, hc]
    · rw [hopen] at hr
      cases hr
  cases hr : s.run with
  | idle => simp [hr, runStep] at hs
  | clear =>
    simp only [hr, runStep, Option.some.injEq] at hs
    subst hs
    have hoff : ∀ i, s.worker i = .off := fun i => hi.off i (by simp [Active, hr])
    have hd : ∀ i, s.deque i = none := fun i => h.unbuilt i (by simp [Built, hr])
    exact hclear _ hi' hoff (load_of_idle hi hd hoff).1 rfl rfl rfl rfl rfl (fun _ => rfl) rfl
  | resize =>
    simp only [hr, runStep, Option.some.injEq] at hs
    subst hs
    exact runner_still h rfl rfl rfl rfl rfl rfl (fun i hb => by simp [Built, hr] at hb)
      (by simp [hr]) (by simp [RunPc.settled])
  | build j =>
    simp only [hr, runStep] at hs
    split_ifs at hs with hj <;> cases hs
    · have hnone : s.deque j = none := h.unbuilt j (by simp [Built, hr])
      have hfresh : (Deque.abs (Deque.machine ℕ α).init).held = 0 := by
        rw [held_eq]
        rfl
      have hstock : stock s.numWorkers
          (Function.update s.deque j (some (Deque.machine ℕ α).init)) =
          stock s.numWorkers s.deque :=
        Counting.sum_update_same (w := dequeTasks) _ (by rw [hnone]; exact hfresh)
      refine .of_load ⟨fun i hb => ?_, fun i e he => ?_⟩ ?_ rfl rfl rfl (by simp [RunPc.settled])
      · have hne : i ≠ j := by
          rintro rfl
          exact hb ⟨hj, Nat.lt_succ_self i⟩
        refine (Function.update_of_ne hne _ _).trans (h.unbuilt i fun hb' => hb ⟨hb'.1, ?_⟩)
        have hlt := hb'.2
        simp only [hr] at hlt
        exact hlt.trans (Nat.lt_succ_self j)
      · rcases eq_or_ne i j with rfl | hne
        · have hself : Function.update s.deque i (some (Deque.machine ℕ α).init) i = some e := he
          rw [Function.update_self, Option.some.injEq] at hself
          exact hself ▸ .of_idle rfl
        · have he' : s.deque i = some e := (Function.update_of_ne hne _ _).symm.trans he
          have hoff : ∀ i, s.worker i = .off := fun i => hi.off i (by simp [Active, hr])
          refine .of_idle (hi.idle (by simp [hoff]) (fun wid x hl => ?_) (by simp [hr]) he')
          rw [hi.quiet i (by rw [hoff i]; rfl)] at hl
          cases hl
      · change (s.injectQueue : Multiset α) + (stock s.numWorkers (Function.update s.deque j _) +
          inHand s.numWorkers s.worker) + inFlight s.numWorkers s.call = s.load
        rw [hstock]
        rfl
    · exact runner_still h rfl rfl rfl rfl rfl rfl (fun i hb => ⟨hb.1, trivial⟩) (by simp [hr])
        (by simp [RunPc.settled])
  | reset =>
    simp only [hr, runStep, Option.some.injEq] at hs
    subst hs
    exact runner_still h rfl rfl rfl rfl rfl rfl (fun i hb => ⟨hb.1, trivial⟩) (by simp [hr])
      (by simp [RunPc.settled])
  | lockDrain =>
    simp only [hr, runStep] at hs
    split_ifs at hs
    cases hs
    exact runner_still h rfl rfl rfl rfl rfl rfl (fun i hb => ⟨hb.1, trivial⟩) (by simp [hr])
      (by simp [RunPc.settled])
  | drain =>
    simp only [hr, runStep] at hs
    cases hq : s.injectQueue with
    | nil =>
      simp only [hq, Option.some.injEq] at hs
      subst hs
      exact runner_still h hq.symm rfl rfl rfl rfl rfl (fun i hb => ⟨hb.1, trivial⟩) (fun _ => hq)
        (by simp [RunPc.settled])
    | cons task rest =>
      simp only [hq, Option.bind_eq_some_iff, Option.map_eq_some_iff] at hs
      obtain ⟨d, hd, ⟨d', last⟩, hpush, rfl⟩ := hs
      exact drain_moves h hi hr hq hd hpush
  | launch j =>
    simp only [hr, runStep] at hs
    split_ifs at hs with hj <;> cases hs
    · have hoff : s.worker j = .off := hi.off j fun hact => by simp [Active, hr] at hact
      have hhand : inHand s.numWorkers (Function.update s.worker j .start) =
          inHand s.numWorkers s.worker := inHand_update_same (by rw [hoff]; rfl)
      refine .of_load (h.mono (fun i hb => ⟨hb.1, trivial⟩) rfl (fun i hw => .inl ?_)
        (fun _ _ _ _ => .inl rfl) (by simp [hr])) ?_ rfl rfl rfl (by simp [RunPc.settled])
      · have hne : i ≠ j := by
          rintro rfl
          rw [hoff] at hw
          cases hw
        exact (Function.update_of_ne hne _ _).trans hw
      · change (s.injectQueue : Multiset α) + (stock s.numWorkers s.deque +
          inHand s.numWorkers (Function.update s.worker j .start)) +
          inFlight s.numWorkers s.call = s.load
        rw [hhand]
        rfl
    · exact runner_still h rfl rfl rfl rfl rfl rfl (fun i hb => ⟨hb.1, trivial⟩) (by simp [hr])
        (by simp [RunPc.settled])
  | wait =>
    simp only [hr, runStep] at hs
    split_ifs at hs with hp <;> cases hs
    · exact runner_still h rfl rfl rfl rfl rfl rfl (fun i hb => hb) (by simp [hr])
        fun hw => .inl hw
    · exact runner_still h rfl rfl rfl rfl rfl rfl (fun i hb => ⟨hb.1, trivial⟩) (by simp [hr])
        fun _ => .inr (not_lt.mp hp)
  | setShutdown =>
    simp only [hr, runStep, Option.some.injEq] at hs
    subst hs
    exact runner_still h rfl rfl rfl rfl rfl rfl (fun i hb => ⟨hb.1, trivial⟩) (by simp [hr])
      fun _ => .inl (by rw [hr]; rfl)
  | join j =>
    simp only [hr, runStep] at hs
    split_ifs at hs with hj hex <;> cases hs
    · have hhand : inHand s.numWorkers (Function.update s.worker j .off) =
          inHand s.numWorkers s.worker := by
        refine inHand_update_same ?_
        cases hw : s.worker j <;> simp_all [WorkerPc.isExited, WorkerPc.tasks]
      have hsame : (stock s.numWorkers s.deque +
          inHand s.numWorkers (Function.update s.worker j .off)) = s.held := by
        rw [hhand]
        rfl
      refine .of_load (h.mono (fun i hb => ⟨hb.1, trivial⟩) rfl (fun i hw => .inl ?_)
        (fun _ _ _ _ => .inl rfl) (by simp [hr])) ?_ rfl rfl rfl
        fun _ => ⟨hsame, .inl (by rw [hr]; rfl)⟩
      · have hne : i ≠ j := by
          rintro rfl
          rw [hw] at hex
          cases hex
        exact (Function.update_of_ne hne _ _).trans hw
      · exact congrArg (fun x => (s.injectQueue : Multiset α) + x +
          inFlight s.numWorkers s.call) hsame
    · exact runner_still h rfl rfl rfl rfl rfl rfl (fun i hb => ⟨hb.1, trivial⟩) (by simp [hr])
        fun _ => .inl (by rw [hr]; rfl)
  | clearEnd =>
    simp only [hr, runStep, Option.some.injEq] at hs
    subst hs
    have hoff : ∀ i, s.worker i = .off := fun i => hi.off i (by simp [Active, hr])
    exact hclear _ hi' hoff (hset (by rw [hr]; rfl)) rfl rfl rfl rfl rfl (fun _ => rfl) rfl

theorem step_moves {a : Action ι α} (h : Contexts s) (hi : Inv s)
    (hset : s.run.settled → s.held = 0) (hs : step s a = some s') : Moves s s' a := by
  cases a with
  | submit t task => exact submit_moves h hs
  | call t => exact call_moves h hi hs
  | worker i rng => exact worker_moves h hi hs
  | finish i => exact finish_moves h hi hs
  | run n => exact run_moves h hi hs
  | runner => exact runner_moves h hi hset hs

/-- The tasks submitted so far against those completed, held and counted. -/
structure Ledger (tr : List (State ι α × Action ι α)) (s : State ι α) : Prop where
  inv : Inv s
  contexts : Contexts s
  tasks : (log submitted tr : Multiset α) = log completed tr + s.load
  pending : s.pending = (log submitted tr).length - (log completed tr).length
  settled : s.run.settled → s.held = 0

variable {tr : List (State ι α × Action ι α)}

theorem Ledger.pending_eq_card (h : Ledger tr s) : s.pending = s.load.card := by
  have hcard := congrArg Multiset.card h.tasks
  have hpend := h.pending
  simp only [Multiset.card_add, Multiset.coe_card] at hcard
  omega

theorem Ledger.init : Ledger [] (machine ι α).init := by
  obtain ⟨-, hload⟩ := load_of_idle (s := (machine ι α).init) inv_init (fun _ => rfl)
    fun _ => rfl
  refine ⟨inv_init, ⟨fun _ _ => rfl, fun i d hd => by cases hd⟩, ?_, rfl, fun hr => by cases hr⟩
  have hzero : ∑ t ∈ Finset.univ.image Thread.outside,
      restTasks ((machine ι α).init.call t) = 0 := Finset.sum_eq_zero fun _ _ => rfl
  rw [hload, hzero]
  rfl

theorem Ledger.step {u v : State ι α} {a : Action ι α} (h : Ledger tr u)
    (hs : step u a = some v) : Ledger (tr ++ [(u, a)]) v := by
  have hm := step_moves h.contexts h.inv h.settled hs
  refine ⟨inv_step u a v h.inv hs, hm.contexts, ?_, ?_, hm.settled h.settled h.pending_eq_card⟩
  · rw [log_snoc, log_snoc, ← Multiset.coe_add, ← Multiset.coe_add, h.tasks, add_assoc, ← hm.tasks]
    abel
  · have hpend := hm.pending
    have hold := h.pending
    simp only [log_snoc, List.length_append]
    push_cast
    omega

theorem ledger_of_run (h : Run (machine ι α) tr s) : Ledger tr s :=
  Run.history Ledger.init (fun _ _ _ _ hu hs => hu.step hs) h

/-- The deques that `workers_.clear()` destroys hold no task. -/
theorem items_of_cleared (h : Run (machine ι α) tr s) (hrun : s.run = .clear ∨ s.run = .clearEnd)
    (hd : s.deque i = some d) : (Deque.abs d).items = [] := by
  have hl := ledger_of_run h
  have hb := hl.contexts.built hd
  rcases hrun with hrun | hrun
  · simp [Built, hrun] at hb
  · have hzero : stock s.numWorkers s.deque = 0 :=
      (add_eq_zero.mp (hl.settled (by rw [hrun]; rfl))).1
    have hi := Finset.sum_eq_zero_iff.mp hzero i (Finset.mem_range.mpr hb.1)
    rw [hd] at hi
    exact (Multiset.coe_eq_zero _).mp (add_eq_zero.mp (show (Deque.abs d).held = 0 from hi)).2

/-- `pending_` is exact at every access inside the deques and their growths: it counts the tasks
in `inject_queue_`, in the lists that the deques stand for or in the hand of a pop there, run by
a worker, and between the increment and the last access of the push of a `submit`. Where it is
zero, every task counted in so far has been run to its end once; `run` leaves its wait loop only
there, and the deques that `workers_.clear()` destroys hold no task. -/
theorem pending_exact (h : Run (machine ι α) tr s) :
    s.pending = (s.injectQueue.length +
        ∑ i ∈ Finset.range s.numWorkers, (dequeTasks (s.deque i)).card +
        ∑ i ∈ Finset.range s.numWorkers, (s.worker i).tasks.card +
        ∑ t ∈ clients ι s.numWorkers, (restTasks (s.call t)).card : ℕ) ∧
      (s.pending = 0 → (log submitted tr : Multiset α) = log completed tr) ∧
      (∀ s', s.run = .wait → step s .runner = some s' → s'.run ≠ .wait → s.pending = 0) ∧
      (s.run = .clear ∨ s.run = .clearEnd → ∀ i d, s.deque i = some d →
        (Deque.abs d).items = []) := by
  have hl := ledger_of_run h
  have hpend := hl.pending_eq_card
  refine ⟨?_, fun hzero => ?_, fun s' hw hs hne => ?_, fun hrun i d hd => ?_⟩
  · rw [hpend]
    simp only [State.load, State.held, stock, inHand, inFlight, Multiset.card_add,
      Multiset.coe_card, Multiset.card_sum]
    push_cast
    ring
  · have hload : s.load = 0 := Multiset.card_eq_zero.mp (by omega)
    rw [hl.tasks, hload, add_zero]
  · simp only [StealingDeques.step, hw, runStep] at hs
    split_ifs at hs with hp <;> cases hs
    · exact absurd hw hne
    · omega
  · exact items_of_cleared h hrun hd

end Steps

/-- One task from outside, moved to the deque by `run` and popped by the one worker. -/
def oneTaskSchedule : List (Action (Fin 1) ℕ) :=
  List.flatten [[.submit (.outside 0) 7], List.replicate 4 (.call (.outside 0)), [.run 1],
    List.replicate 15 .runner, List.replicate 9 (.worker 0 0), [.finish 0],
    List.replicate 5 .runner]

theorem pending_exact_one_task :
    ∃ s, exec (machine (Fin 1) ℕ) (machine (Fin 1) ℕ).init oneTaskSchedule = some s ∧
      s.run = .idle ∧
      (log submitted (record (machine (Fin 1) ℕ) (machine (Fin 1) ℕ).init oneTaskSchedule) :
          Multiset ℕ) =
        log completed (record (machine (Fin 1) ℕ) (machine (Fin 1) ℕ).init oneTaskSchedule) := by
  have hen : (exec (machine (Fin 1) ℕ) (machine (Fin 1) ℕ).init oneTaskSchedule).any
      fun s => decide (s.run = .idle ∧ s.pending = 0) := by decide
  obtain ⟨s, hs, hend⟩ := (Option.any_eq_true _ _).mp hen
  obtain ⟨hidle, hzero⟩ := of_decide_eq_true hend
  exact ⟨s, hs, hidle, (pending_exact (exec_steps hs)).2.1 hzero⟩

end TaskScheduler.StealingDeques
