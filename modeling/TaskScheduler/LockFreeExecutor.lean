import TaskScheduler.Driven
import TaskScheduler.Executor
import TaskScheduler.LockFreeBlocking
import TaskScheduler.LockFreeCompletion

/-!
# LockFreeQueueScheduler is an executor

One thread submits tasks from outside, then it calls `run` once, and destroys the scheduler after
that; every task may submit more. The tasks of a run are fewer than `2 ^ 63`.
-/
namespace TaskScheduler.LockFree
open Transition TaskPool Executor

variable {ω α : Type*}

/-- The step is the return of `run`. -/
def State.returns (s : State Unit ω α) : Bool :=
  match s.run with
  | .join _ _ [] => true
  | _ => false

/-- The caller of `run`: it submits before that, and calls it with the threads of `crew`. -/
def host [DecidableEq ω] (crew : List ω) (phase : Phase) (s : State Unit ω α) :
    Action Unit ω α → Option (Action Unit ω α × Phase)
  | .submit i task => if phase = .before then some (.submit i task, phase) else none
  | .spawn w task => some (.spawn w task, phase)
  | .access t spurious => some (.access t spurious, phase)
  | .worker w => some (.worker w, phase)
  | .finish w => some (.finish w, phase)
  | .run i crew' => if phase = .before ∧ crew' = crew then some (.run i crew', .running) else none
  | .runner => some (.runner, if s.returns then .after else phase)
  | .destroy => if phase = .after then some (.destroy, phase) else none
  | .drain => some (.drain, phase)

/-- The task that the worker runs. -/
def WorkerPc.task : WorkerPc α → Option α
  | .running x | .submitting x => some x
  | _ => none

def WorkerPc.isRunning : WorkerPc α → Bool
  | .running _ => true
  | _ => false

/-- The scheduler as its caller and its tasks see it. A task is handed over where `submit` counts
it in, and begins where a worker has it from `dequeue`. -/
def executor [DecidableEq ω] (crew : List ω) (α : Type*) (log2Ring : ℕ) :
    View (State Unit ω α × Phase) (Action Unit ω α) ω α where
  machine := (machine Unit ω α log2Ring).drive .before (host crew)
  event := fun (s, _) => fun
    | .submit _ task => some (.submit task)
    | .spawn w task => some (.spawn w task)
    | .finish w => some (.finish w)
    | .run _ _ => some .run
    | .worker w => (started s (.worker w)).map (.start w)
    | .runner => if s.returns then some .ret else none
    | .access _ _ | .destroy | .drain => none
  current := fun (s, _) w => (s.worker w).task
  phase := fun (_, phase) => phase
  free := fun (s, _) => fun
    | none => (s.ring.threads (.outside ())).isIdle
    | some w => (s.worker w).isRunning

section Steps
variable [DecidableEq ω] {crew : List ω} {log2Ring : ℕ} {s u v : State Unit ω α} {ph ph' : Phase}
  {k : Action Unit ω α} {w : ω}

theorem host_label {phase : Phase} {r : Action Unit ω α × Phase}
    (h : host crew phase s k = some r) : r.1 = k := by
  cases k <;> simp only [host] at h <;> (try split_ifs at h) <;>
    exact (congrArg Prod.fst (Option.some.inj h)).symm

theorem host_step {s u : State Unit ω α × Phase}
    (h : (executor crew α log2Ring).machine.step s k = some u) :
    host crew s.2 s.1 k = some (k, u.2) ∧ step log2Ring s.1 k = some u.1 := by
  obtain ⟨a, ha, hs⟩ := drive_step h
  obtain rfl := host_label ha
  exact ⟨ha, hs⟩

/-- Only a worker that takes a task, or whose task returns, changes what it runs. -/
theorem Effect.tasks (hc : s.Control) (he : Effect s k u) :
    (∃ w, k = .finish w ∧ (s.worker w).task ≠ none ∧
      (fun j => (u.worker j).task) = Function.update (fun j => (s.worker j).task) w none) ∨
    (∃ w x, k = .worker w ∧ started s k = some x ∧ s.worker w = .fetch ∧
      (fun j => (u.worker j).task) = Function.update (fun j => (s.worker j).task) w (some x)) ∨
    (∀ w, k ≠ .finish w) ∧ started s k = none ∧ ∀ j, (u.worker j).task = (s.worker j).task := by
  have hsame : ∀ {w : ω} {pc : WorkerPc α}, pc.task = (s.worker w).task →
      ∀ j, (Function.update s.worker w pc j).task = (s.worker j).task := by
    intro w pc hpc j
    rcases eq_or_ne j w with rfl | hne
    · rwa [Function.update_self]
    · rw [Function.update_of_ne hne]
  have hset : ∀ {w : ω} {pc : WorkerPc α}, (fun j => (Function.update s.worker w pc j).task) =
      Function.update (fun j => (s.worker j).task) w pc.task := by
    intro w pc
    funext j
    rcases eq_or_ne j w with rfl | hne
    · simp
    · simp [Function.update_of_ne hne]
  cases he with
  | spawn hw => exact .inr (.inr ⟨by simp, rfl, hsame (by simp [hw, WorkerPc.task])⟩)
  | take hw ht => exact .inr (.inl ⟨_, _, rfl, by simp only [started, hw, ht], hw, hset⟩)
  | empty hw ht =>
    exact .inr (.inr ⟨by simp, by simp only [started, hw, ht], hsame (by simp [hw, WorkerPc.task])⟩)
  | submitted hw ht =>
    exact .inr (.inr ⟨by simp, by simp only [started, hw], hsame (by simp [hw, WorkerPc.task])⟩)
  | decrement hw =>
    exact .inr (.inr ⟨by simp, by simp only [started, hw], hsame (by simp [hw, WorkerPc.task])⟩)
  | exit hw hs =>
    exact .inr (.inr ⟨by simp, by simp only [started, hw], hsame (by simp [hw, WorkerPc.task])⟩)
  | retry hw hs =>
    exact .inr (.inr ⟨by simp, by simp only [started, hw], hsame (by simp [hw, WorkerPc.task])⟩)
  | finish hw => exact .inl ⟨_, rfl, by simp [hw, WorkerPc.task], hset⟩
  | launch hr =>
    have hoff := hc.crew
    rw [hr] at hoff
    refine .inr (.inr ⟨by simp, rfl, hsame ?_⟩)
    simp [hoff.2.2 _ (.inr List.mem_cons_self), WorkerPc.task]
  | join hr hw => exact .inr (.inr ⟨by simp, rfl, hsame (by simp [hw, WorkerPc.task])⟩)
  | _ => exact .inr (.inr ⟨by simp, rfl, fun _ => rfl⟩)

/-- The crew of the `run` in progress is that of its one call. -/
def Crewed (crew : List ω) (s : State Unit ω α) (ph : Phase) : Prop :=
  s.run.crew = if ph = .running then some crew else none

omit [DecidableEq ω] in
/-- A worker that is not `off` exists only while `run` is running. -/
theorem Crewed.on (h : Crewed crew s ph) (hc : s.Control) (hw : s.worker w ≠ .off) :
    ph = .running ∧ w ∈ crew := by
  have hcrew : ∃ c, s.run.crew = some c ∧ w ∈ c := by
    have hok := hc.crew
    cases hr : s.run with
    | launch i c rest =>
      rw [hr] at hok
      exact ⟨c, rfl, by_contra fun hn => hw (hok.2.2 w (.inl hn))⟩
    | wait i c =>
      rw [hr] at hok
      exact ⟨c, rfl, by_contra fun hn => hw (hok w hn)⟩
    | setShutdown i c =>
      rw [hr] at hok
      exact ⟨c, rfl, by_contra fun hn => hw (hok w hn)⟩
    | join i c rest =>
      rw [hr] at hok
      exact ⟨c, rfl, hok.1.subset (by_contra fun hn => hw (hok.2 w hn))⟩
    | _ =>
      rw [hr] at hok
      exact absurd (hok w) hw
  obtain ⟨c, hc, hmem⟩ := hcrew
  rw [Crewed, hc] at h
  split_ifs at h with hrun
  exact ⟨hrun, Option.some.inj h ▸ hmem⟩

theorem crewed_init : Crewed crew (machine Unit ω α log2Ring).init .before := rfl

theorem crewed_step (h : Crewed crew s ph) (ha : host crew ph s k = some (k, ph'))
    (he : Effect s k u) : Crewed crew u ph' := by
  have hph : ∀ {c : Phase}, some (k, c) = some (k, ph') → c = ph' := fun h =>
    (Prod.mk.inj (Option.some.inj h)).2
  have hgo : s.returns = false → (if s.returns then .after else ph) = ph' →
      u.run.crew = s.run.crew → Crewed crew u ph' := by
    intro hr hp hu
    rw [hr] at hp
    exact hp ▸ hu.trans h
  cases he with
  | submit hx =>
    simp only [host] at ha
    split_ifs at ha
    exact hph ha ▸ h
  | run hr hi hn =>
    simp only [host] at ha
    split_ifs at ha with hb
    obtain rfl := hph ha
    exact congrArg some hb.2
  | launch hr => exact hgo (by simp [State.returns, hr]) (hph ha) (by rw [hr]; rfl)
  | launched hr => exact hgo (by simp [State.returns, hr]) (hph ha) (by rw [hr]; rfl)
  | spin hr hp => exact hgo (by simp [State.returns, hr]) (hph ha) rfl
  | zero hr hp => exact hgo (by simp [State.returns, hr]) (hph ha) (by rw [hr]; rfl)
  | shutdown hr => exact hgo (by simp [State.returns, hr]) (hph ha) (by rw [hr]; rfl)
  | join hr hw => exact hgo (by simp [State.returns, hr]) (hph ha) (by rw [hr]; rfl)
  | ret hr =>
    have hp : (if s.returns then Phase.after else ph) = ph' := hph ha
    rw [show s.returns = true by simp [State.returns, hr]] at hp
    exact hp ▸ rfl
  | destroy hr hi =>
    simp only [host] at ha
    split_ifs at ha with hb
    obtain rfl := hph ha
    rw [Crewed, hb]
    rfl
  | drained hr ht =>
    obtain rfl := hph ha
    rw [Crewed, hr] at h
    exact h
  | _ => exact hph ha ▸ h

/-- With every task completed, a step that submits none from outside leaves it so. -/
theorem completed_step [Fintype ω] (hlo : 1 ≤ log2Ring) (hhi : log2Ring ≤ 63)
    {tr : List (State Unit ω α × Action Unit ω α)} (h : Run (machine Unit ω α log2Ring) tr s)
    (hsmall : (log submitted tr).length < 2 ^ 63)
    (hall : (log completed tr : Multiset α) = log submitted tr) (hs : step log2Ring s k = some v)
    (hk : submittedOutside s k = none) : completed s k = none ∧ submitted s k = none := by
  have heq := submitted_eq hlo hhi h hsmall
  rw [hall, add_assoc, left_eq_add, add_eq_zero] at heq
  refine ⟨?_, (submitted_outside heq.2 hs).trans hk⟩
  cases k with
  | worker w =>
    have hown := own_eq_zero heq.2 w
    cases hw : s.worker w <;> simp [completed, hw]
    rw [hw] at hown
    exact absurd hown (Multiset.singleton_ne_zero _)
  | _ => rfl

/-- The laws of one step. -/
theorem changes_step (hc : s.Control) (h : Crewed crew s ph) (ha : host crew ph s k = some (k, ph'))
    (he : Effect s k v) (hv : u.worker = v.worker) :
    (executor crew α log2Ring).Changes crew.toFinset (s, ph) (u, ph')
      ((executor crew α log2Ring).event (s, ph) k) := by
  have hph : ∀ {c : Phase}, some (k, c) = some (k, ph') → ph' = c := fun h =>
    (Prod.mk.inj (Option.some.inj h)).2.symm
  have hcur : ∀ {f : ω → Option α}, (fun j => (v.worker j).task) = f →
      (executor crew α log2Ring).current (u, ph') = f := by
    rintro f rfl
    simp only [executor, hv]
  rcases he.tasks hc with ⟨w, rfl, hw, hset⟩ | ⟨w, x, rfl, hstart, hw, hset⟩ | ⟨hfin, hnone, hsame⟩
  · exact ⟨hw, hcur hset, hph ha⟩
  · obtain ⟨hrun, hmem⟩ := h.on hc (w := w) (by simp [hw])
    have hevent : (executor crew α log2Ring).event (s, ph) (.worker w) = some (.start w x) :=
      congrArg (Option.map (Event.start w)) hstart
    rw [hevent]
    exact ⟨hrun, List.mem_toFinset.mpr hmem, by simp [executor, hw, WorkerPc.task], hcur hset,
      (hph ha).trans hrun⟩
  · have hstill : (executor crew α log2Ring).current (u, ph') =
        (executor crew α log2Ring).current (s, ph) := hcur (funext hsame)
    cases k with
    | submit i task =>
      simp only [host] at ha
      split_ifs at ha with hb
      exact ⟨hb, hstill, (hph ha).trans hb⟩
    | spawn w task =>
      cases he with
      | spawn hw => exact ⟨by simp [executor, hw, WorkerPc.task], hstill, hph ha⟩
    | finish w => exact absurd rfl (hfin w)
    | worker w =>
      have hevent : (executor crew α log2Ring).event (s, ph) (.worker w) = none :=
        congrArg (Option.map (Event.start w)) hnone
      rw [hevent]
      exact ⟨hstill, hph ha⟩
    | run i crew' =>
      simp only [host] at ha
      split_ifs at ha with hb
      exact ⟨hb.1, hstill, hph ha⟩
    | runner =>
      have hp := hph ha
      change (executor crew α log2Ring).Changes _ _ _ (if s.returns then some .ret else none)
      split_ifs at hp ⊢ with hr
      · refine ⟨by_contra fun (hne : ph ≠ .running) => ?_, hstill, hp⟩
        rw [Crewed, if_neg hne] at h
        cases hrun : s.run <;> simp_all [State.returns, RunPc.crew]
      · exact ⟨hstill, hp⟩
    | destroy =>
      simp only [host] at ha
      split_ifs at ha
      exact ⟨hstill, hph ha⟩
    | access t spurious => exact ⟨hstill, hph ha⟩
    | drain => exact ⟨hstill, hph ha⟩

theorem started_view (s : State Unit ω α) (ph : Phase) (k : Action Unit ω α) :
    (executor crew α log2Ring).started (s, ph) k = started s k := by
  cases k with
  | worker w =>
    change ((started s (.worker w)).map (Event.start w)).bind Event.started = _
    cases started s (.worker w) <;> rfl
  | runner =>
    change (if s.returns then some (.ret : Event ω α) else none).bind Event.started = _
    cases s.returns <;> rfl
  | _ => rfl

theorem called_view (s : State Unit ω α) (ph : Phase) (k : Action Unit ω α) :
    (executor crew α log2Ring).called (s, ph) k = submitted s k := by
  cases k with
  | worker w =>
    change ((started s (.worker w)).map (Event.start w)).bind Event.called = _
    cases started s (.worker w) <;> rfl
  | runner =>
    change (if s.returns then some (.ret : Event ω α) else none).bind Event.called = _
    cases s.returns <;> rfl
  | _ => rfl

theorem join_of_ret (he : (executor crew α log2Ring).event (s, ph) k = some .ret) :
    ∃ i c, s.run = .join i c [] := by
  cases k with
  | runner =>
    have hr : s.returns = true := by
      by_contra hr
      rw [show (executor crew α log2Ring).event (s, ph) .runner = none from if_neg hr] at he
      cases he
    simp only [State.returns] at hr
    split at hr
    · exact ⟨_, _, ‹_›⟩
    · cases hr
  | worker w =>
    obtain ⟨x, -, hx⟩ := Option.map_eq_some_iff.mp he
    cases hx
  | _ => cases he

end Steps

section Runs
variable [DecidableEq ω] {crew : List ω} {log2Ring : ℕ} {s u : State Unit ω α × Phase}
  {tr : List ((State Unit ω α × Phase) × Action Unit ω α)} {k : Action Unit ω α}

theorem run_view (h : Run (executor crew α log2Ring).machine tr s) :
    Run (machine Unit ω α log2Ring) (driven (host crew) tr) s.1 ∧
      log submitted (driven (host crew) tr) = log (executor crew α log2Ring).called tr ∧
      log started (driven (host crew) tr) = log (executor crew α log2Ring).started tr := by
  have hlog : ∀ {o : State Unit ω α → Action Unit ω α → Option α},
      log o (driven (host crew) tr) = log (fun s a => o s.1 a) tr := fun {o} =>
    log_driven (fun _ _ _ _ => host_label) o h
  refine ⟨Run.driven h, hlog.trans ?_, hlog.trans ?_⟩
  · exact congrArg (log · tr) (funext fun s => funext fun a => (called_view s.1 s.2 a).symm)
  · exact congrArg (log · tr) (funext fun s => funext fun a => (started_view s.1 s.2 a).symm)

theorem crewed_of_run (h : Run (executor crew α log2Ring).machine tr s) : Crewed crew s.1 s.2 := by
  refine Run.invariant (I := fun s => Crewed crew s.1 s.2) crewed_init (fun u k v hu hs => ?_) h
  obtain ⟨ha, hstep⟩ := host_step hs
  obtain ⟨v', r, he, -, hv⟩ := step_effect hstep
  have hcrew := crewed_step hu ha he
  rw [Crewed, hv]
  exact hcrew

/-- From the read of `pending_` at zero on, every task is completed. -/
theorem completed_of_closing [Fintype ω] (hlo : 1 ≤ log2Ring) (hhi : log2Ring ≤ 63)
    (h : Run (executor crew α log2Ring).machine tr s)
    (hsmall : (log (executor crew α log2Ring).called tr).length < 2 ^ 63)
    (hclosing : s.1.run.closing) : (log completed (driven (host crew) tr) : Multiset α) =
      log submitted (driven (host crew) tr) := by
  refine (Run.history (I := fun tr s => Run (executor crew α log2Ring).machine tr s ∧
    ((log submitted (driven (host crew) tr)).length < 2 ^ 63 → s.1.run.closing →
      (log completed (driven (host crew) tr) : Multiset α) = log submitted (driven (host crew) tr)))
    ⟨.nil, fun _ _ => rfl⟩ ?_ h).2 ((run_view h).2.1 ▸ hsmall) hclosing
  rintro tr u k v ⟨hrun, ih⟩ hs
  refine ⟨.snoc hrun hs, fun hlen hclosing => ?_⟩
  obtain ⟨ha, hstep⟩ := host_step hs
  rw [driven_snoc _ ha] at hlen ⊢
  rw [log_snoc, List.length_append] at hlen
  rw [log_snoc, log_snoc]
  have hprior := Run.driven hrun
  by_cases hu : u.1.run.closing
  · have hall := ih (by omega) hu
    have hk : submittedOutside u.1 k = none := by
      cases k with
      | submit i task =>
        simp only [host] at ha
        split_ifs at ha with hb
        have hcrew := crewed_of_run hrun
        rw [Crewed, if_neg (by simp [hb])] at hcrew
        cases hr : u.1.run <;> simp_all [RunPc.closing, RunPc.crew]
      | _ => rfl
    obtain ⟨hc, hsub⟩ := completed_step hlo hhi hprior (by omega) hall hstep hk
    rw [hc, hsub]
    simpa using hall
  · -- The read itself.
    obtain ⟨v', r, he, -, hv⟩ := step_effect hstep
    rw [hv] at hclosing
    cases he with
    | zero hr hp =>
      simpa [completed, submitted] using (completed_of_pending hlo hhi hprior (by omega) hp).1
    | run hr hi hn => cases hclosing
    | launch hr => cases hclosing
    | launched hr => cases hclosing
    | shutdown hr => exact absurd (by rw [hr]; rfl) hu
    | join hr hw => exact absurd (by rw [hr]; rfl) hu
    | ret hr => cases hclosing
    | destroy hr hi => cases hclosing
    | drained hr ht => cases hclosing
    | _ => exact absurd hclosing hu

/-- LockFreeQueueScheduler obeys the laws of an executor while fewer than `2 ^ 63` tasks have been
handed over, for any crew and any size of the ring. -/
theorem lawful [Fintype ω] (hlo : 1 ≤ log2Ring) (hhi : log2Ring ≤ 63) (crew : List ω) :
    (executor crew α log2Ring).Lawful crew.toFinset (· < 2 ^ 63) where
  init := ⟨rfl, rfl⟩
  changes s a s' hr hs := by
    obtain ⟨tr, htr⟩ := hr
    obtain ⟨ha, hstep⟩ := host_step hs
    obtain ⟨v, r, he, -, hv⟩ := step_effect hstep
    exact changes_step (control_of_run (run_view htr).1) (crewed_of_run htr) ha he
      (by rw [hv])
  started_le tr s hr hfit := by
    obtain ⟨hrun, hcalled, hstarted⟩ := run_view hr
    rw [← hcalled] at hfit
    rw [← hcalled, ← hstarted]
    exact started_le hlo hhi hrun hfit
  ret tr s a s' hr hfit hs he := by
    obtain ⟨hrun, hcalled, hstarted⟩ := run_view hr
    obtain ⟨i, c, hjoin⟩ := join_of_ret he
    have hoff : ∀ w, s.1.worker w = .off := fun w => by
      have hok := (control_of_run hrun).crew
      rw [hjoin] at hok
      exact hok.2 w (by simp)
    have hall := completed_of_closing hlo hhi hr hfit (by rw [hjoin]; rfl)
    have hown : owned s.1.worker = 0 := Finset.sum_eq_zero fun w _ => by rw [hoff w]; rfl
    rw [← hcalled, ← hstarted, started_eq hrun, hown, add_zero]
    exact ⟨hall, fun w => by simp [executor, hoff w, WorkerPc.task]⟩

end Runs

end TaskScheduler.LockFree
