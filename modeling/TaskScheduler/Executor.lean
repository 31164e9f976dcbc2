import TaskScheduler.Pool

/-!
# Executors

What a scheduler is for, seen by its callers: a bag of tasks from which a crew of threads takes
the tasks that it runs. A machine with a view of its steps as calls and answers is an executor of
this kind when a few laws hold along its runs; a program that calls it then runs as in a pool.
-/
namespace Executor
open Transition TaskPool

variable {σ ℓ ω α μ θ : Type*}

/-- A call of the driver or of a task, a task that begins on a thread, or the return of the call
in which the driver waits. -/
inductive Event (ω α : Type*)
  | submit (x : α)
  | spawn (w : ω) (x : α)
  | run
  | start (w : ω) (x : α)
  | finish (w : ω)
  | ret

/-- The tasks that have not begun, those that the threads run, and what the driver does. -/
structure Bag (ω α : Type*) where
  waiting : Multiset α
  current : ω → Option α
  phase : Phase

open Classical in
/-- The driver submits before it waits; it waits until every task has been run to its end. -/
noncomputable def Bag.step [DecidableEq ω] (crew : Finset ω) (b : Bag ω α) : Event ω α → Option (Bag ω α)
  | .submit x => if b.phase = .before then some { b with waiting := b.waiting + {x} } else none
  | .spawn w x =>
    if b.current w ≠ none then some { b with waiting := b.waiting + {x} } else none
  | .run => if b.phase = .before then some { b with phase := .running } else none
  | .start w x =>
    if b.phase = .running ∧ w ∈ crew ∧ b.current w = none ∧ x ∈ b.waiting then
      some { b with waiting := b.waiting - {x}, current := Function.update b.current w (some x) }
    else none
  | .finish w =>
    if b.current w ≠ none then some { b with current := Function.update b.current w none }
    else none
  | .ret =>
    if b.phase = .running ∧ b.waiting = 0 ∧ ∀ w, b.current w = none then
      some { b with phase := .after }
    else none

noncomputable def Bag.machine [DecidableEq ω] (crew : Finset ω) : Machine (Bag ω α) (Event ω α) where
  init := { waiting := 0, current := fun _ => none, phase := .before }
  step := Bag.step crew

def Event.called : Event ω α → Option α
  | .submit x | .spawn _ x => some x
  | _ => none

def Event.started : Event ω α → Option α
  | .start _ x => some x
  | _ => none

/-- A machine, and its steps and states as its callers see them. A thread of the crew, or the
driver, is `free` when it is not inside a call. -/
structure View (σ ℓ ω α : Type*) where
  machine : Machine σ ℓ
  event : σ → ℓ → Option (Event ω α)
  current : σ → ω → Option α
  phase : σ → Phase
  free : σ → Option ω → Bool

namespace View
variable (E : View σ ℓ ω α)

def called (s : σ) (a : ℓ) : Option α := (E.event s a).bind Event.called

def started (s : σ) (a : ℓ) : Option α := (E.event s a).bind Event.started

/-- What an event changes in the view, and what it requires. -/
def Changes [DecidableEq ω] (crew : Finset ω) (s s' : σ) : Option (Event ω α) → Prop
  | none => E.current s' = E.current s ∧ E.phase s' = E.phase s
  | some (.submit _) => E.phase s = .before ∧ E.current s' = E.current s ∧ E.phase s' = .before
  | some (.spawn w _) => E.current s w ≠ none ∧ E.current s' = E.current s ∧
      E.phase s' = E.phase s
  | some .run => E.phase s = .before ∧ E.current s' = E.current s ∧ E.phase s' = .running
  | some (.start w x) => E.phase s = .running ∧ w ∈ crew ∧ E.current s w = none ∧
      E.current s' = Function.update (E.current s) w (some x) ∧ E.phase s' = .running
  | some (.finish w) => E.current s w ≠ none ∧
      E.current s' = Function.update (E.current s) w none ∧ E.phase s' = E.phase s
  | some .ret => E.phase s = .running ∧ E.current s' = E.current s ∧ E.phase s' = .after

/-- The laws of an executor with this crew, as long as the number of submitted tasks fits. -/
structure Lawful [DecidableEq ω] (crew : Finset ω) (fits : ℕ → Prop) : Prop where
  init : E.current E.machine.init = (fun _ => none) ∧ E.phase E.machine.init = .before
  changes : ∀ s a s', Reachable E.machine s → E.machine.step s a = some s' →
    E.Changes crew s s' (E.event s a)
  started_le : ∀ tr s, Run E.machine tr s → fits (log E.called tr).length →
    (log E.started tr : Multiset α) ≤ log E.called tr
  ret : ∀ tr s a s', Run E.machine tr s → fits (log E.called tr).length →
    E.machine.step s a = some s' → E.event s a = some .ret →
    (log E.started tr : Multiset α) = log E.called tr ∧ ∀ w, E.current s w = none

variable {E}

theorem event_logs (E : View σ ℓ ω α) (tr : List (σ × ℓ)) (s : σ) (a : ℓ) :
    log E.event (tr ++ [(s, a)]) = log E.event tr ++ (E.event s a).toList ∧
      log E.called (tr ++ [(s, a)]) =
        log E.called tr ++ ((E.event s a).bind Event.called).toList ∧
      log E.started (tr ++ [(s, a)]) =
        log E.started tr ++ ((E.event s a).bind Event.started).toList :=
  ⟨log_snoc _ _ _ _, log_snoc _ _ _ _, log_snoc _ _ _ _⟩

open Classical in
/-- What the callers see of a run: the tasks called and not begun, the threads, the driver. -/
noncomputable def bag (E : View σ ℓ ω α) (tr : List (σ × ℓ)) (s : σ) : Bag ω α :=
  { waiting := (log E.called tr : Multiset α) - log E.started tr
    current := E.current s
    phase := E.phase s }

/-- The step of the abstract scheduler under a step of the machine. -/
theorem Lawful.bag_step [DecidableEq ω] {crew : Finset ω} {fits : ℕ → Prop}
    (h : E.Lawful crew fits) {tr : List (σ × ℓ)} {s s' : σ} {a : ℓ} (hr : Run E.machine tr s)
    (hs : E.machine.step s a = some s') (hfit : fits (log E.called tr).length)
    (hfit' : fits (log E.called (tr ++ [(s, a)])).length) :
    match E.event s a with
    | some e => Bag.step crew (E.bag tr s) e = some (E.bag (tr ++ [(s, a)]) s')
    | none => E.bag (tr ++ [(s, a)]) s' = E.bag tr s := by
  classical
  have hchanges := h.changes s a s' hr.reachable hs
  have hle := h.started_le tr s hr hfit
  have hle' := h.started_le _ s' (hr.snoc hs) hfit'
  obtain ⟨-, hcalled, hstarted⟩ := event_logs E tr s a
  rw [hcalled, hstarted] at hle'
  have hret := h.ret tr s a s' hr hfit hs
  simp only [bag, hcalled, hstarted]
  cases he : E.event s a with
  | none =>
    rw [he] at hchanges
    simp [hchanges.1, hchanges.2]
  | some e =>
    rw [he] at hchanges hle' hret
    have hcall : ∀ x, ((log E.called tr ++ [x] : List α) : Multiset α) - log E.started tr =
        log E.called tr - log E.started tr + {x} := fun x => by
      rw [← Multiset.coe_add, Multiset.coe_singleton, tsub_add_eq_add_tsub hle]
    cases e with
    | submit x =>
      obtain ⟨hp, hcur, hp'⟩ := hchanges
      simp [Bag.step, hp, hcur, hp', Event.called, Event.started, hcall]
    | spawn w x =>
      obtain ⟨hw, hcur, hp⟩ := hchanges
      simp [Bag.step, hw, hcur, hp, Event.called, Event.started, hcall]
    | run =>
      obtain ⟨hp, hcur, hp'⟩ := hchanges
      simp [Bag.step, hp, hcur, hp', Event.called, Event.started]
    | start w x =>
      obtain ⟨hp, hw, hnone, hcur, hp'⟩ := hchanges
      simp only [Option.bind_some, Event.called, Event.started, Option.toList_none,
        Option.toList_some, List.append_nil, ← Multiset.coe_add, Multiset.coe_singleton] at hle' ⊢
      have hmem : x ∈ (log E.called tr : Multiset α) - log E.started tr :=
        Multiset.singleton_le.mp (le_tsub_of_add_le_left hle')
      simp only [Bag.step, hp, hw, hnone, hmem, and_self, if_true, hcur, hp',
        tsub_add_eq_tsub_tsub]
    | finish w =>
      obtain ⟨hw, hcur, hp⟩ := hchanges
      simp [Bag.step, hw, hcur, hp, Event.called, Event.started]
    | ret =>
      obtain ⟨hp, hcur, hp'⟩ := hchanges
      obtain ⟨hsame, hidle⟩ := hret rfl
      have hidle' : E.current s = fun _ => none := funext hidle
      simp [Bag.step, hp, hcur, hp', Event.called, Event.started, hsame, hidle']

/-- The calls and answers of a run are those of a run of the abstract scheduler. -/
theorem Lawful.bag_run [DecidableEq ω] {crew : Finset ω} {fits : ℕ → Prop}
    (h : E.Lawful crew fits) {tr : List (σ × ℓ)} {s : σ} (hr : Run E.machine tr s)
    (hfit : ∀ m ≤ (log E.called tr).length, fits m) :
    ∃ tr', Run (Bag.machine crew) tr' (E.bag tr s) ∧
      log (fun _ e => some e) tr' = log E.event tr := by
  induction hr with
  | nil =>
    refine ⟨[], ?_, rfl⟩
    have hinit : E.bag [] E.machine.init = (Bag.machine (α := α) crew).init := by
      simp [bag, h.init, Bag.machine]
    rw [hinit]
    exact .nil
  | @snoc tr u v a prior last ih =>
    obtain ⟨hevent, hcalled, -⟩ := event_logs E tr u a
    have hlen : (log E.called tr).length ≤ (log E.called (tr ++ [(u, a)])).length := by
      rw [hcalled, List.length_append]
      exact Nat.le_add_right _ _
    obtain ⟨tr', hrun, hlog⟩ := ih fun m hm => hfit m (hm.trans hlen)
    have hstep := h.bag_step prior last (hfit _ hlen) (hfit _ le_rfl)
    cases he : E.event u a with
    | none =>
      rw [he] at hstep hevent
      exact ⟨tr', hstep ▸ hrun, by rw [hlog, hevent]; simp⟩
    | some e =>
      rw [he] at hstep hevent
      exact ⟨tr' ++ [(E.bag tr u, e)], .snoc hrun hstep, by rw [log_snoc, hlog, hevent]⟩

end View

/-- A step of the program on the driver or on a thread, without a call, or a step of the machine
with what it means for the program. -/
inductive Choice (ℓ ω : Type*)
  | main
  | task (w : ω)
  | own (a : ℓ)

def Choice.label : Choice ℓ ω → Option ℓ
  | .own a => some a
  | .main | .task _ => none

/-- The local state of the task that thread `w` runs, with the number of the task. -/
def running (current : ω → Option ℕ) (p : Pool μ θ) (w : ω) : Option (ℕ × θ) :=
  (current w).bind fun j => p.tasks[j]?.map fun e => (j, e.2)

/-- The program makes the calls of its next steps, its tasks named by the order of submission,
and hears which task begins. -/
def follow (P : Program μ θ) (current : ω → Option ℕ) (p : Pool μ θ) :
    Option (Event ω ℕ) → Option (Pool μ θ)
  | none => some p
  | some (.submit x) =>
    (P.main p.mem).bind fun r =>
      if r.2.isSome ∧ x = p.tasks.length then some (p.afterMain r) else none
  | some (.spawn w x) =>
    (running current p w).bind fun jt => (P.step p.mem jt.2).bind fun r =>
      if r.2.2.isSome ∧ x = p.tasks.length then some (p.afterTask jt.1 r) else none
  | some .run => if (P.main p.mem).isNone then some { p with phase := .running } else none
  | some (.start _ j) => p.tasks[j]?.map fun e => p.setStatus j .running e.2
  | some (.finish w) =>
    (running current p w).bind fun jt =>
      if (P.step p.mem jt.2).isNone then some (p.setStatus jt.1 .done jt.2) else none
  | some .ret => some { p with phase := .after }

/-- The machine with the program as its caller. -/
def View.pooled (E : View σ ℓ ω ℕ) (P : Program μ θ) : Machine (σ × Pool μ θ) (Choice ℓ ω) where
  init := (E.machine.init, { mem := P.init, tasks := [], phase := .before })
  step := fun (s, p) => fun
    | .main =>
      if E.phase s = .before ∧ E.free s none then
        (P.main p.mem).bind fun r => if r.2.isNone then some (s, p.afterMain r) else none
      else none
    | .task w =>
      if E.free s (some w) then
        (running (E.current s) p w).bind fun jt => (P.step p.mem jt.2).bind fun r =>
          if r.2.2.isNone then some (s, p.afterTask jt.1 r) else none
      else none
    | .own a =>
      (follow P (E.current s) p (E.event s a)).bind fun p' =>
        (E.machine.step s a).map fun s' => (s', p')

/-- The step of the pool that an event is. -/
def Event.action (current : ω → Option ℕ) : Event ω ℕ → Option Action
  | .submit _ => some .main
  | .spawn w _ | .finish w => (current w).map .task
  | .run => some .run
  | .start _ j => some (.start j)
  | .ret => some .ret

/-- The step of the pool under a step of the machine with its program. -/
def View.action (E : View σ ℓ ω ℕ) (s : σ) : Choice ℓ ω → Option Action
  | .main => some .main
  | .task w => (E.current s w).map .task
  | .own a => (E.event s a).bind (Event.action (E.current s))

/-- The run of the pool under a run of the machine with its program. -/
def View.trace (E : View σ ℓ ω ℕ) (tr : List ((σ × Pool μ θ) × Choice ℓ ω)) :
    List (Pool μ θ × Action) :=
  log (fun u c => (E.action u.1 c).map fun b => (u.2, b)) tr

namespace View
variable {E : View σ ℓ ω ℕ} {P : Program μ θ} {crew : Finset ω} {fits : ℕ → Prop}
  {s s' : σ} {p p' : Pool μ θ}

/-- An observation of the pool, made along the run of the machine. -/
theorem log_trace {κ : Type*} (o : Pool μ θ → Action → Option κ)
    (tr : List ((σ × Pool μ θ) × Choice ℓ ω)) :
    log o (E.trace tr) = log (fun u c => (E.action u.1 c).bind (o u.2)) tr := by
  simp only [trace, log, List.filterMap_filterMap]
  congr 1
  funext e
  cases E.action e.1.1 e.2 <;> rfl

/-- What the machine did in a run with the program. -/
def own (tr : List ((σ × Pool μ θ) × Choice ℓ ω)) : List (σ × ℓ) :=
  log (fun s c => c.label.map fun a => (s.1, a)) tr

/-- How the pool and the machine fit together after a run: the tasks called are those of the
pool, those that have not begun are queued, and those that run are on one thread each. -/
structure Joined (E : View σ ℓ ω ℕ) (crew : Finset ω) (tr : List (σ × ℓ)) (s : σ)
    (p : Pool μ θ) : Prop where
  run : Run E.machine tr s
  called : log E.called tr = List.range p.tasks.length
  phase : E.phase s = p.phase
  queued : ∀ j < p.tasks.length, p.status j = some .queued ↔ j ∉ log E.started tr
  running : ∀ j < p.tasks.length, p.status j = some .running ↔ ∃ w, E.current s w = some j
  current : ∀ w j, E.current s w = some j → w ∈ crew ∧ j ∈ log E.started tr
  alone : ∀ w w' j, E.current s w = some j → E.current s w' = some j → w = w'

section Joined
variable [DecidableEq ω] {tr tr' : List (σ × ℓ)} {a : ℓ}

/-- The tasks that have begun are tasks of the pool, each begun once. -/
theorem Joined.started (h : Joined E crew tr s p) (hl : E.Lawful crew fits)
    (hf : fits p.tasks.length) :
    (log E.started tr).Nodup ∧ ∀ j ∈ log E.started tr, j < p.tasks.length := by
  have hle := hl.started_le tr s h.run (by rwa [h.called, List.length_range])
  rw [h.called] at hle
  refine ⟨?_, fun j hj => List.mem_range.mp (Multiset.mem_coe.mp (Multiset.mem_of_le hle hj))⟩
  exact Multiset.coe_nodup.mp (Multiset.nodup_of_le hle (Multiset.coe_nodup.mpr List.nodup_range))

/-- No task begins or ends. -/
theorem Joined.still (h : Joined E crew tr s p) (hl : E.Lawful crew fits)
    (hf : fits p.tasks.length) (hrun : Run E.machine tr' s')
    (hcalled : log E.called tr' = List.range p'.tasks.length)
    (hstarted : log E.started tr' = log E.started tr) (hcur : E.current s' = E.current s)
    (hphase : E.phase s' = p'.phase)
    (hsame : ∀ i < p.tasks.length, p'.status i = p.status i)
    (hnew : ∀ i, p.tasks.length ≤ i → i < p'.tasks.length → p'.status i = some .queued) :
    Joined E crew tr' s' p' := by
  obtain ⟨-, hbound⟩ := h.started hl hf
  refine ⟨hrun, hcalled, hphase, fun j hj => ?_, fun j hj => ?_, ?_, ?_⟩
  · rw [hstarted]
    rcases lt_or_ge j p.tasks.length with hlt | hge
    · rw [hsame j hlt]
      exact h.queued j hlt
    · exact iff_of_true (hnew j hge hj) fun hmem => (hbound j hmem).not_ge hge
  · rw [hcur]
    rcases lt_or_ge j p.tasks.length with hlt | hge
    · rw [hsame j hlt]
      exact h.running j hlt
    · refine iff_of_false (fun hr => ?_) fun ⟨w, hw⟩ => (hbound j (h.current w j hw).2).not_ge hge
      rw [hnew j hge hj] at hr
      cases hr
  · rw [hcur, hstarted]
    exact h.current
  · rw [hcur]
    exact h.alone

/-- A task that runs is in the pool, and running there. -/
theorem Joined.entry (h : Joined E crew tr s p) (hl : E.Lawful crew fits)
    (hf : fits p.tasks.length) {w : ω} {jt : ℕ × θ} (hr : Executor.running (E.current s) p w = some jt) :
    E.current s w = some jt.1 ∧ p.tasks[jt.1]? = some (.running, jt.2) := by
  obtain ⟨j, hj, hmap⟩ := Option.bind_eq_some_iff.mp hr
  obtain ⟨⟨x, t⟩, he, rfl⟩ := Option.map_eq_some_iff.mp hmap
  obtain ⟨-, hbound⟩ := h.started hl hf
  have hst := (h.running j (hbound j (h.current w j hj).2)).mpr ⟨w, hj⟩
  rw [Pool.status, he, Option.map_some, Option.some.injEq] at hst
  exact ⟨hj, by rw [he, show x = .running from hst]⟩

/-- While a thread of the crew is free the pool is not full. -/
theorem Joined.busy_lt (h : Joined E crew tr s p) {w : ω} (hw : w ∈ crew)
    (hnone : E.current s w = none) : p.busy < crew.card := by
  rw [busy_eq]
  have hsub : ((Finset.range p.tasks.length).filter fun j => p.status j = some .running) ⊆
      (crew.erase w).image fun v => (E.current s v).getD 0 := by
    intro j hj
    obtain ⟨hlt, hrun⟩ := Finset.mem_filter.mp hj
    obtain ⟨v, hv⟩ := (h.running j (Finset.mem_range.mp hlt)).mp hrun
    refine Finset.mem_image.mpr ⟨v, Finset.mem_erase.mpr ⟨fun he => ?_, (h.current v j hv).1⟩, ?_⟩
    · rw [he, hnone] at hv
      cases hv
    · rw [hv]
      rfl
  calc _ ≤ (crew.erase w).card := (Finset.card_le_card hsub).trans Finset.card_image_le
    _ < crew.card := Finset.card_erase_lt_of_mem hw

/-- The step of the pool, if there is one. -/
def poolStep (P : Program μ θ) (n : ℕ) (p : Pool μ θ) : Option Action → Option (Pool μ θ)
  | some b => TaskPool.step P n p b
  | none => some p

theorem poolStep_some {n : ℕ} {b : Action} (h : Effect P n p b p') :
    poolStep P n p (some b) = some p' := h.step

/-- The pool follows the machine. -/
def Follows (E : View σ ℓ ω ℕ) (P : Program μ θ) (crew : Finset ω) (tr : List (σ × ℓ)) (s : σ)
    (p : Pool μ θ) (b : Option Action) (p' : Pool μ θ) : Prop :=
  Joined E crew tr s p' ∧ poolStep P crew.card p b = some p'

/-- A task begins on a thread that is free. -/
theorem Joined.start (h : Joined E crew tr s p) (hl : E.Lawful crew fits)
    (hf : fits p.tasks.length) {w : ω} {j : ℕ} (hs : E.machine.step s a = some s')
    (he : E.event s a = some (.start w j)) :
    ∃ t, p.tasks[j]? = some (.queued, t) ∧
      Follows E P crew (tr ++ [(s, a)]) s' p (some (.start j)) (p.setStatus j .running t) := by
  have hrun := h.run.snoc hs
  obtain ⟨hphase, hw, hnone, hcur, hphase'⟩ : E.Changes crew s s' (some (.start w j)) :=
    he ▸ hl.changes s a s' h.run.reachable hs
  obtain ⟨-, hcalled, hstarted⟩ := event_logs E tr s a
  rw [he] at hcalled hstarted
  simp only [Option.bind_some, Event.called, Event.started, Option.toList_none, Option.toList_some,
    List.append_nil] at hcalled hstarted
  have hle := hl.started_le _ s' hrun (by rwa [hcalled, h.called, List.length_range])
  rw [hcalled, hstarted, h.called] at hle
  have hnodup := Multiset.coe_nodup.mp
    (Multiset.nodup_of_le hle (Multiset.coe_nodup.mpr List.nodup_range))
  have hfresh : j ∉ log E.started tr := fun hmem =>
    (List.nodup_append.mp hnodup).2.2 j hmem j (List.mem_singleton_self j) rfl
  have hlt : j < p.tasks.length :=
    List.mem_range.mp (Multiset.mem_coe.mp (Multiset.mem_of_le hle (by simp)))
  have hst := (h.queued j hlt).mpr hfresh
  obtain ⟨⟨x, t⟩, hx, hx'⟩ := Option.map_eq_some_iff.mp hst
  obtain rfl : x = .queued := hx'
  have hother : ∀ v i, E.current s v = some i → i ≠ j := by
    rintro v i hv rfl
    exact hfresh (h.current v i hv).2
  refine ⟨t, hx, ⟨hrun, ?_, ?_, fun i hi => ?_, fun i hi => ?_, fun v i hv => ?_,
    fun v v' i hv hv' => ?_⟩, poolStep_some (.start hx ?_ (h.busy_lt hw hnone))⟩
  · rw [hcalled, h.called, length_setStatus]
  · exact hphase'.trans (h.phase ▸ hphase.symm)
  · rw [length_setStatus] at hi
    rw [status_setStatus _ _ hi, hstarted]
    split_ifs with hij
    · subst hij
      exact iff_of_false (by simp) (by simp)
    · rw [h.queued i hi]
      simp [Ne.symm hij]
  · rw [length_setStatus] at hi
    rw [status_setStatus _ _ hi, hcur]
    split_ifs with hij
    · subst hij
      exact iff_of_true rfl ⟨w, Function.update_self _ _ _⟩
    · rw [h.running i hi]
      refine exists_congr fun v => ?_
      rcases eq_or_ne v w with rfl | hv
      · rw [hnone, Function.update_self]
        simp [hij]
      · rw [Function.update_of_ne hv]
  · rw [hcur] at hv
    rw [hstarted]
    rcases eq_or_ne v w with rfl | hvw
    · rw [Function.update_self, Option.some.injEq] at hv
      exact ⟨hw, by simp [hv]⟩
    · rw [Function.update_of_ne hvw] at hv
      exact ⟨(h.current v i hv).1, List.mem_append_left _ (h.current v i hv).2⟩
  · rw [hcur] at hv hv'
    by_cases hvw : v = w <;> by_cases hvw' : v' = w
    · exact hvw.trans hvw'.symm
    · rw [hvw, Function.update_self, Option.some.injEq] at hv
      rw [Function.update_of_ne hvw'] at hv'
      exact absurd hv.symm (hother v' i hv')
    · rw [hvw', Function.update_self, Option.some.injEq] at hv'
      rw [Function.update_of_ne hvw] at hv
      exact absurd hv'.symm (hother v i hv)
    · rw [Function.update_of_ne hvw] at hv
      rw [Function.update_of_ne hvw'] at hv'
      exact h.alone v v' i hv hv'
  · exact h.phase ▸ hphase

/-- The task of a thread ends. -/
theorem Joined.finish (h : Joined E crew tr s p) (hl : E.Lawful crew fits)
    (hf : fits p.tasks.length) {w : ω} {jt : ℕ × θ} (hs : E.machine.step s a = some s')
    (he : E.event s a = some (.finish w)) (hr : Executor.running (E.current s) p w = some jt)
    (hstep : P.step p.mem jt.2 = none) :
    Follows E P crew (tr ++ [(s, a)]) s' p (some (.task jt.1)) (p.setStatus jt.1 .done jt.2) := by
  obtain ⟨hw, hentry⟩ := h.entry hl hf hr
  obtain ⟨-, hcur, hphase⟩ : E.Changes crew s s' (some (.finish w)) :=
    he ▸ hl.changes s a s' h.run.reachable hs
  obtain ⟨-, hcalled, hstarted⟩ := event_logs E tr s a
  rw [he] at hcalled hstarted
  simp only [Option.bind_some, Event.called, Event.started, Option.toList_none,
    List.append_nil] at hcalled hstarted
  refine ⟨⟨h.run.snoc hs, ?_, ?_, fun i hi => ?_, fun i hi => ?_, fun v i hv => ?_,
    fun v v' i hv hv' => ?_⟩, poolStep_some (.done hentry hstep)⟩
  · rw [hcalled, h.called, length_setStatus]
  · exact hphase.trans h.phase
  · rw [length_setStatus] at hi
    rw [status_setStatus _ _ hi, hstarted]
    split_ifs with hij
    · subst hij
      exact iff_of_false (by simp) (not_not.mpr (h.current w jt.1 hw).2)
    · exact h.queued i hi
  · rw [length_setStatus] at hi
    rw [status_setStatus _ _ hi, hcur]
    split_ifs with hij
    · subst hij
      refine iff_of_false (by simp) fun ⟨v, hv⟩ => ?_
      rcases eq_or_ne v w with rfl | hvw
      · rw [Function.update_self] at hv
        cases hv
      · rw [Function.update_of_ne hvw] at hv
        exact hvw (h.alone v w jt.1 hv hw)
    · rw [h.running i hi]
      refine exists_congr fun v => ?_
      rcases eq_or_ne v w with rfl | hv
      · rw [hw, Function.update_self]
        simp [hij]
      · rw [Function.update_of_ne hv]
  · rw [hcur] at hv
    rw [hstarted]
    rcases eq_or_ne v w with rfl | hvw
    · rw [Function.update_self] at hv
      cases hv
    · rw [Function.update_of_ne hvw] at hv
      exact h.current v i hv
  · rw [hcur] at hv hv'
    rcases eq_or_ne v w with rfl | hvw
    · rw [Function.update_self] at hv
      cases hv
    · rcases eq_or_ne v' w with rfl | hvw'
      · rw [Function.update_self] at hv'
        cases hv'
      · rw [Function.update_of_ne hvw] at hv
        rw [Function.update_of_ne hvw'] at hv'
        exact h.alone v v' i hv hv'

/-- The driver returns when every task has run to its end. -/
theorem Joined.all_done (h : Joined E crew tr s p) (hl : E.Lawful crew fits)
    (hf : fits p.tasks.length) (hs : E.machine.step s a = some s')
    (he : E.event s a = some .ret) : ∀ e ∈ p.tasks, e.1 = .done := by
  obtain ⟨hsame, hidle⟩ := hl.ret tr s a s' h.run (by rwa [h.called, List.length_range]) hs he
  rintro ⟨x, t⟩ hmem
  obtain ⟨j, hj⟩ := List.getElem?_of_mem hmem
  have hlt : j < p.tasks.length := (List.getElem?_eq_some_iff.mp hj).1
  have hst : p.status j = some x := by rw [Pool.status, hj]; rfl
  cases x with
  | queued =>
    refine absurd ?_ ((h.queued j hlt).mp hst)
    rw [h.called] at hsame
    exact Multiset.mem_coe.mp (hsame ▸ Multiset.mem_coe.mpr (List.mem_range.mpr hlt))
  | running =>
    obtain ⟨w, hw⟩ := (h.running j hlt).mp hst
    rw [hidle w] at hw
    cases hw
  | done => rfl

omit [DecidableEq ω] in
theorem poolStep_task {w : ω} {j : ℕ} (hw : E.current s w = some j)
    (h : poolStep P crew.card p (some (.task j)) = some p') :
    poolStep P crew.card p ((E.current s w).map .task) = some p' := by
  rwa [hw]

/-- A step of the machine with the program as its caller. -/
theorem Joined.own (h : Joined E crew tr s p) (hl : E.Lawful crew fits)
    (hf : fits p.tasks.length) (hs : E.machine.step s a = some s')
    (hp : follow P (E.current s) p (E.event s a) = some p') :
    Follows E P crew (tr ++ [(s, a)]) s' p
      ((E.event s a).bind (Event.action (E.current s))) p' := by
  have hrun := h.run.snoc hs
  have hch := hl.changes s a s' h.run.reachable hs
  obtain ⟨-, hcalled, hstarted⟩ := event_logs E tr s a
  cases he : E.event s a with
  | none =>
    rw [he] at hp hch hcalled hstarted
    obtain rfl : p = p' := Option.some.inj hp
    simp only [Option.bind_none, Option.toList_none, List.append_nil] at hcalled hstarted
    exact ⟨h.still hl hf hrun (hcalled.trans h.called) hstarted hch.1 (hch.2.trans h.phase)
      (fun _ _ => rfl) fun i h1 h2 => absurd h1 h2.not_ge, rfl⟩
  | some e =>
    rw [he] at hp hch hcalled hstarted
    cases e with
    | submit x =>
      obtain ⟨hphase, hcur, hphase'⟩ := hch
      obtain ⟨r, hr, hif⟩ := Option.bind_eq_some_iff.mp hp
      split_ifs at hif with hx
      obtain rfl : p.afterMain r = p' := Option.some.inj hif
      obtain ⟨t, ht⟩ := Option.isSome_iff_exists.mp hx.1
      simp only [Option.bind_some, Event.called, Event.started, Option.toList_none,
        Option.toList_some, List.append_nil] at hcalled hstarted
      have hbefore : p.phase = .before := h.phase ▸ hphase
      refine ⟨h.still hl hf hrun ?_ hstarted hcur (hphase'.trans hbefore.symm)
        (fun i hi => status_afterMain r hi) fun i h1 h2 => status_new_main r h1 h2,
        poolStep_some (.main hbefore hr)⟩
      rw [hcalled, h.called, hx.2, length_afterMain, ht, Option.toList_some, List.length_singleton,
        List.range_succ]
    | spawn w x =>
      obtain ⟨-, hcur, hphase⟩ := hch
      obtain ⟨jt, hjt, hbind⟩ := Option.bind_eq_some_iff.mp hp
      obtain ⟨r, hr, hif⟩ := Option.bind_eq_some_iff.mp hbind
      split_ifs at hif with hx
      obtain rfl : p.afterTask jt.1 r = p' := Option.some.inj hif
      obtain ⟨t, ht⟩ := Option.isSome_iff_exists.mp hx.1
      obtain ⟨hcurrent, hentry⟩ := h.entry hl hf hjt
      have hst : p.status jt.1 = some .running := by rw [Pool.status, hentry]; rfl
      simp only [Option.bind_some, Event.called, Event.started, Option.toList_none,
        Option.toList_some, List.append_nil] at hcalled hstarted
      refine ⟨h.still hl hf hrun ?_ hstarted hcur (hphase.trans h.phase)
        (fun i hi => status_afterTask r hst hi) fun i h1 h2 => status_new_task r h1 h2,
        poolStep_task hcurrent (poolStep_some (.task hentry hr))⟩
      rw [hcalled, h.called, hx.2, length_afterTask, ht, Option.toList_some, List.length_singleton,
        List.range_succ]
    | run =>
      obtain ⟨hphase, hcur, hphase'⟩ := hch
      simp only [follow] at hp
      split_ifs at hp with hx
      cases hp
      simp only [Option.bind_some, Event.called, Event.started, Option.toList_none,
        List.append_nil] at hcalled hstarted
      exact ⟨h.still hl hf hrun (hcalled.trans h.called) hstarted hcur hphase'
        (fun _ _ => rfl) fun i h1 h2 => absurd h1 h2.not_ge,
        poolStep_some (.run (h.phase ▸ hphase) (by simpa using hx))⟩
    | start w j =>
      obtain ⟨⟨x, t⟩, ht, rfl⟩ := Option.map_eq_some_iff.mp hp
      obtain ⟨t', ht', hfollows⟩ := h.start hl hf hs he
      obtain ⟨-, rfl⟩ := Prod.mk.inj (Option.some.inj (ht.symm.trans ht'))
      exact hfollows
    | finish w =>
      obtain ⟨jt, hjt, hif⟩ := Option.bind_eq_some_iff.mp hp
      split_ifs at hif with hx
      obtain rfl := Option.some.inj hif
      obtain ⟨hjoined, hstep⟩ := h.finish hl hf hs he hjt (by simpa using hx)
      exact ⟨hjoined, poolStep_task (h.entry hl hf hjt).1 hstep⟩
    | ret =>
      obtain ⟨hphase, hcur, hphase'⟩ := hch
      obtain rfl := Option.some.inj hp
      simp only [Option.bind_some, Event.called, Event.started, Option.toList_none,
        List.append_nil] at hcalled hstarted
      exact ⟨h.still hl hf hrun (hcalled.trans h.called) hstarted hcur hphase'
        (fun _ _ => rfl) fun i h1 h2 => absurd h1 h2.not_ge,
        poolStep_some (.ret (h.phase ▸ hphase) (h.all_done hl hf hs he))⟩

/-- A step of the program between two calls. -/
theorem Joined.silent {b : Option Action} (h : Joined E crew tr s p) (hl : E.Lawful crew fits)
    (hf : fits p.tasks.length) (hlen : p'.tasks.length = p.tasks.length)
    (hphase : p'.phase = p.phase) (hsame : ∀ i < p.tasks.length, p'.status i = p.status i)
    (hstep : poolStep P crew.card p b = some p') :
    Follows E P crew tr s p b p' :=
  ⟨h.still hl hf h.run (by rw [h.called, hlen]) rfl rfl (h.phase.trans hphase.symm) hsame
    fun i h1 h2 => absurd (hlen ▸ h2) h1.not_gt, hstep⟩

/-- A step of the machine with its program is a step of the pool, or leaves the pool alone. -/
theorem Joined.pooled {tr : List ((σ × Pool μ θ) × Choice ℓ ω)} {c : Choice ℓ ω}
    {u v : σ × Pool μ θ} (h : Joined E crew (View.own tr) u.1 u.2) (hl : E.Lawful crew fits)
    (hf : fits u.2.tasks.length) (hs : (E.pooled P).step u c = some v) :
    Follows E P crew (View.own (tr ++ [(u, c)])) v.1 u.2 (E.action u.1 c) v.2 := by
  obtain ⟨s, p⟩ := u
  rw [View.own, log_snoc]
  cases c with
  | main =>
    simp only [View.pooled] at hs
    split_ifs at hs with hfree
    obtain ⟨r, hr, hif⟩ := Option.bind_eq_some_iff.mp hs
    split_ifs at hif with hnone
    obtain rfl := Option.some.inj hif
    have hbefore : p.phase = .before := h.phase ▸ hfree.1
    rw [Choice.label, Option.map_none, Option.toList_none, List.append_nil]
    refine h.silent hl hf ?_ rfl (fun i hi => status_afterMain r hi)
      (poolStep_some (.main hbefore hr))
    rw [length_afterMain, Option.isNone_iff_eq_none.mp hnone]
    rfl
  | task w =>
    simp only [View.pooled] at hs
    split_ifs at hs
    obtain ⟨jt, hjt, hbind⟩ := Option.bind_eq_some_iff.mp hs
    obtain ⟨r, hr, hif⟩ := Option.bind_eq_some_iff.mp hbind
    split_ifs at hif with hnone
    obtain rfl := Option.some.inj hif
    obtain ⟨hcurrent, hentry⟩ := h.entry hl hf hjt
    have hst : p.status jt.1 = some .running := by rw [Pool.status, hentry]; rfl
    rw [Choice.label, Option.map_none, Option.toList_none, List.append_nil]
    refine h.silent hl hf ?_ rfl (fun i hi => status_afterTask r hst hi)
      (poolStep_task hcurrent (poolStep_some (.task hentry hr)))
    rw [length_afterTask, Option.isNone_iff_eq_none.mp hnone]
    rfl
  | own a =>
    obtain ⟨p', hp, hmap⟩ := Option.bind_eq_some_iff.mp hs
    obtain ⟨s', hs', rfl⟩ := Option.map_eq_some_iff.mp hmap
    exact h.own hl hf hs' hp

theorem joined_init (hl : E.Lawful crew fits) :
    Joined E crew [] (E.pooled P).init.1 (E.pooled P).init.2 where
  run := .nil
  called := rfl
  phase := hl.init.2
  queued j hj := absurd hj (Nat.not_lt_zero j)
  running j hj := absurd hj (Nat.not_lt_zero j)
  current w j hw := by
    change E.current E.machine.init w = some j at hw
    rw [hl.init.1] at hw
    cases hw
  alone w w' j hw := by
    change E.current E.machine.init w = some j at hw
    rw [hl.init.1] at hw
    cases hw

end Joined

/-- A lawful executor runs a program as a pool with as many threads as its crew has. -/
theorem Lawful.pooled [DecidableEq ω] (hl : E.Lawful crew fits)
    (hf : ∀ q, Reachable (TaskPool.machine P crew.card) q → fits q.tasks.length)
    {tr : List ((σ × Pool μ θ) × Choice ℓ ω)} {u : σ × Pool μ θ} (h : Run (E.pooled P) tr u) :
    Joined E crew (own tr) u.1 u.2 ∧ Run (TaskPool.machine P crew.card) (E.trace tr) u.2 := by
  refine Run.history (I := fun tr u => Joined E crew (own tr) u.1 u.2 ∧
    Run (TaskPool.machine P crew.card) (E.trace tr) u.2) ⟨joined_init hl, .nil⟩
    (fun tr u c v hu hs => ?_) h
  obtain ⟨hjoined, hstep⟩ := hu.1.pooled hl (hf _ hu.2.reachable) hs
  refine ⟨hjoined, ?_⟩
  rw [trace, log_snoc]
  cases hb : E.action u.1 c with
  | none =>
    rw [hb] at hstep
    have hsame : u.2 = v.2 := Option.some.inj hstep
    rw [Option.map_none, Option.toList_none, List.append_nil, ← hsame]
    exact hu.2
  | some b =>
    rw [hb] at hstep
    exact hu.2.snoc hstep

end View
end Executor
