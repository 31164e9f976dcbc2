import TaskScheduler.Exclusion
import TaskScheduler.MutexInvariant

/-!
# Who holds `mu_`

Every step of MutexQueueScheduler as one change of the state, and what the predicates of the
two condition variables guarantee to a thread that has found them true or false under `mu_`.
-/
namespace TaskScheduler.MutexQueue
open Transition

variable {ι α : Type*}

section Outside
variable [DecidableEq ι]

def State.setOutside (s : State ι α) (o : ι) (call : Option (SubmitPc α)) : State ι α :=
  { s with outside := Function.update s.outside o call }

end Outside

/-- The change of the state that the next access of a `submit` makes. -/
inductive Submits (s : State ι α) (t : Thread ι) :
    Option ℕ → SubmitPc α → State ι α → Option (SubmitPc α) → Prop
  | lock {wake : Option ℕ} {task : α} (h : s.mu = none) :
      Submits s t wake (.lock task) { s with mu := some t } (some (.add task))
  | add {wake : Option ℕ} {task : α} :
      Submits s t wake (.add task) { s with pending := s.pending + 1 } (some (.push task))
  | push {wake : Option ℕ} {task : α} : Submits s t wake (.push task)
      { s with queue := s.queue ++ [task], mu := none } (some .notify)
  | notify {i : ℕ} (h : (s.worker i).isBlocked) :
      Submits s t (some i) .notify (s.setWorker i .woken) none
  | unheard (h : ∀ i < s.numWorkers, (s.worker i).isBlocked = false) :
      Submits s t none .notify s none

theorem submits_of_step {s s' : State ι α} {t : Thread ι} {wake : Option ℕ} {call : SubmitPc α}
    {rest : Option (SubmitPc α)} (h : submitStep s t wake call = some (s', rest)) :
    Submits s t wake call s' rest := by
  cases call with
  | lock task =>
    simp only [submitStep] at h
    split_ifs at h with hmu
    cases h
    exact .lock hmu
  | add task =>
    cases h
    exact .add
  | push task =>
    cases h
    exact .push
  | notify =>
    simp only [submitStep, Option.map_eq_some_iff, Prod.mk.injEq] at h
    obtain ⟨v, hv, rfl, rfl⟩ := h
    cases wake with
    | none =>
      simp only [notifyOne] at hv
      split_ifs at hv with hb
      cases hv
      push Not at hb
      exact .unheard fun i hi => by simpa using hb i hi
    | some i =>
      simp only [notifyOne] at hv
      split_ifs at hv with hb
      cases hv
      exact .notify hb

/-- The change of the state that a step makes. -/
inductive Effect [DecidableEq ι] (s : State ι α) : Action ι α → State ι α → Prop
  | submit {o : ι} {task : α} (h : s.outside o = none) :
      Effect s (.submit o task) (s.setOutside o (some (.lock task)))
  | outside {o : ι} {wake : Option ℕ} {call : SubmitPc α} {rest : Option (SubmitPc α)}
      {u : State ι α} (h : s.outside o = some call) (hu : Submits s (.outside o) wake call u rest) :
      Effect s (.outside o wake) (u.setOutside o rest)
  | spawn {i : ℕ} {x task : α} (h : s.worker i = .running x none) :
      Effect s (.spawn i task) (s.setWorker i (.running x (some (.lock task))))
  | finish {i : ℕ} {x : α} (h : s.worker i = .running x none) :
      Effect s (.finish i) (s.setWorker i .decrement)
  | call {i : ℕ} {wake : Option ℕ} {x : α} {call : SubmitPc α} {rest : Option (SubmitPc α)}
      {u : State ι α} (h : s.worker i = .running x (some call))
      (hu : Submits s (.worker i) wake call u rest) :
      Effect s (.worker i wake) (u.setWorker i (.running x rest))
  | lock {i : ℕ} {wake : Option ℕ} (h : s.worker i = .lock ∨ s.worker i = .woken)
      (hmu : s.mu = none) :
      Effect s (.worker i wake) ({ s with mu := some (.worker i) }.setWorker i .check)
  | found {i : ℕ} {wake : Option ℕ} (h : s.worker i = .check)
      (hp : s.queue ≠ [] ∨ s.shutdown = true) : Effect s (.worker i wake) (s.setWorker i .take)
  | wait {i : ℕ} {wake : Option ℕ} (h : s.worker i = .check) (hq : s.queue = [])
      (hs : s.shutdown = false) : Effect s (.worker i wake) (s.setWorker i .block)
  | block {i : ℕ} {wake : Option ℕ} (h : s.worker i = .block) :
      Effect s (.worker i wake) ({ s with mu := none }.setWorker i .blocked)
  | take {i : ℕ} {wake : Option ℕ} {task : α} {rest : List α} (h : s.worker i = .take)
      (hq : s.queue = task :: rest) : Effect s (.worker i wake)
        ({ s with queue := rest, mu := none }.setWorker i (.running task none))
  | exit {i : ℕ} {wake : Option ℕ} (h : s.worker i = .take) (hq : s.queue = []) :
      Effect s (.worker i wake) ({ s with mu := none }.setWorker i .exited)
  | last {i : ℕ} {wake : Option ℕ} (h : s.worker i = .decrement) (hp : s.pending - 1 = 0) :
      Effect s (.worker i wake) ({ s with pending := s.pending - 1 }.setWorker i .notifyDone)
  | decrement {i : ℕ} {wake : Option ℕ} (h : s.worker i = .decrement) (hp : s.pending - 1 ≠ 0) :
      Effect s (.worker i wake) ({ s with pending := s.pending - 1 }.setWorker i .lock)
  | notifyDone {i : ℕ} {wake : Option ℕ} (h : s.worker i = .notifyDone) :
      Effect s (.worker i wake) ({ s with runner := s.runner.wake }.setWorker i .lock)
  | run {n : ℕ} (h : s.runner = .idle) :
      Effect s (.run n) { s with numWorkers := n, runner := .lockReset }
  | lockReset (h : s.runner = .lockReset) (hmu : s.mu = none) :
      Effect s .runner { s with mu := some .runner, runner := .reset }
  | reset (h : s.runner = .reset) :
      Effect s .runner { s with shutdown := false, mu := none, runner := .spawn 0 }
  | launch {i : ℕ} (h : s.runner = .spawn i) (hi : i < s.numWorkers) :
      Effect s .runner { s.setWorker i .lock with runner := .spawn (i + 1) }
  | launched {i : ℕ} (h : s.runner = .spawn i) (hi : ¬ i < s.numWorkers) :
      Effect s .runner { s with runner := .lockWait }
  | lockWait (h : s.runner = .lockWait ∨ s.runner = .woken) (hmu : s.mu = none) :
      Effect s .runner { s with mu := some .runner, runner := .check }
  | zero (h : s.runner = .check) (hp : s.pending = 0) :
      Effect s .runner { s with runner := .setShutdown }
  | positive (h : s.runner = .check) (hp : s.pending ≠ 0) :
      Effect s .runner { s with runner := .block }
  | blockDone (h : s.runner = .block) : Effect s .runner { s with mu := none, runner := .blocked }
  | setShutdown (h : s.runner = .setShutdown) :
      Effect s .runner { s with shutdown := true, mu := none, runner := .notifyAll }
  | notifyAll (h : s.runner = .notifyAll) :
      Effect s .runner { s with worker := fun i => (s.worker i).wake, runner := .join 0 }
  | join {i : ℕ} (h : s.runner = .join i) (hi : i < s.numWorkers) (hw : s.worker i = .exited) :
      Effect s .runner { s.setWorker i .off with runner := .join (i + 1) }
  | ret {i : ℕ} (h : s.runner = .join i) (hi : ¬ i < s.numWorkers) :
      Effect s .runner { s with runner := .idle }
  | spuriousWorker {i : ℕ} (h : (s.worker i).isBlocked) :
      Effect s (.spuriousWorker i) (s.setWorker i .woken)
  | spuriousRunner (h : s.runner = .blocked) :
      Effect s .spuriousRunner { s with runner := .woken }

section Steps
variable [DecidableEq ι] {s s' : State ι α} {a : Action ι α}

theorem workerStep_effect {i : ℕ} {wake : Option ℕ}
    (hs : workerStep s i wake (s.worker i) = some s') : Effect s (.worker i wake) s' := by
  cases hpc : s.worker i with
  | lock =>
    simp only [workerStep, hpc] at hs
    split_ifs at hs with hmu
    cases hs
    exact .lock (.inl hpc) hmu
  | woken =>
    simp only [workerStep, hpc] at hs
    split_ifs at hs with hmu
    cases hs
    exact .lock (.inr hpc) hmu
  | check =>
    simp only [workerStep, hpc] at hs
    split_ifs at hs with hp <;> cases hs
    · exact .found hpc hp
    · push Not at hp
      exact .wait hpc hp.1 (by simpa using hp.2)
  | block =>
    simp only [workerStep, hpc, Option.some.injEq] at hs
    subst hs
    exact .block hpc
  | take =>
    simp only [workerStep, hpc] at hs
    cases hq : s.queue with
    | nil =>
      simp only [hq, Option.some.injEq] at hs
      subst hs
      rw [← hq]
      exact .exit hpc hq
    | cons task rest =>
      simp only [hq, Option.some.injEq] at hs
      subst hs
      exact .take hpc hq
  | running task call =>
    cases call with
    | none => simp [workerStep, hpc] at hs
    | some call =>
      simp only [workerStep, hpc, Option.map_eq_some_iff, Prod.exists] at hs
      obtain ⟨v, rest, hv, rfl⟩ := hs
      exact .call hpc (submits_of_step hv)
  | decrement =>
    simp only [workerStep, hpc, Option.some.injEq] at hs
    subst hs
    split_ifs with hp
    · exact .last hpc hp
    · exact .decrement hpc hp
  | notifyDone =>
    simp only [workerStep, hpc, Option.some.injEq] at hs
    subst hs
    exact .notifyDone hpc
  | _ => simp [workerStep, hpc] at hs

theorem runStep_effect (hs : runStep s s.runner = some s') : Effect s .runner s' := by
  cases hpc : s.runner with
  | lockReset =>
    simp only [runStep, hpc] at hs
    split_ifs at hs with hmu
    cases hs
    exact .lockReset hpc hmu
  | reset =>
    simp only [runStep, hpc, Option.some.injEq] at hs
    subst hs
    exact .reset hpc
  | spawn i =>
    simp only [runStep, hpc] at hs
    split_ifs at hs with hi <;> cases hs
    · exact .launch hpc hi
    · exact .launched hpc hi
  | lockWait =>
    simp only [runStep, hpc] at hs
    split_ifs at hs with hmu
    cases hs
    exact .lockWait (.inl hpc) hmu
  | woken =>
    simp only [runStep, hpc] at hs
    split_ifs at hs with hmu
    cases hs
    exact .lockWait (.inr hpc) hmu
  | check =>
    simp only [runStep, hpc, Option.some.injEq] at hs
    subst hs
    split_ifs with hp
    · exact .zero hpc hp
    · exact .positive hpc hp
  | block =>
    simp only [runStep, hpc, Option.some.injEq] at hs
    subst hs
    exact .blockDone hpc
  | setShutdown =>
    simp only [runStep, hpc, Option.some.injEq] at hs
    subst hs
    exact .setShutdown hpc
  | notifyAll =>
    simp only [runStep, hpc, Option.some.injEq] at hs
    subst hs
    exact .notifyAll hpc
  | join i =>
    simp only [runStep, hpc] at hs
    split_ifs at hs with hi hw <;> cases hs
    · refine .join hpc hi ?_
      cases hpc' : s.worker i <;> simp_all [WorkerPc.isExited]
    · exact .ret hpc hi
  | _ => simp [runStep, hpc] at hs

/-- Every step is one of the changes listed. -/
theorem step_effect (hs : step s a = some s') : Effect s a s' := by
  cases a with
  | submit o task =>
    cases ho : s.outside o <;> simp only [step, ho, reduceCtorEq, Option.some.injEq] at hs
    subst hs
    exact .submit ho
  | outside o wake =>
    cases ho : s.outside o with
    | none => simp [step, ho] at hs
    | some call =>
      simp only [step, ho, Option.map_eq_some_iff, Prod.exists] at hs
      obtain ⟨v, rest, hv, rfl⟩ := hs
      exact .outside ho (submits_of_step hv)
  | spawn i task =>
    cases hpc : s.worker i <;> simp only [step, hpc, reduceCtorEq] at hs
    rename_i x call
    cases call <;> simp only [reduceCtorEq, Option.some.injEq] at hs
    subst hs
    exact .spawn hpc
  | finish i =>
    cases hpc : s.worker i <;> simp only [step, hpc, reduceCtorEq] at hs
    rename_i x call
    cases call <;> simp only [reduceCtorEq, Option.some.injEq] at hs
    subst hs
    exact .finish hpc
  | worker i wake => exact workerStep_effect hs
  | run n =>
    cases hpc : s.runner <;> simp only [step, hpc, reduceCtorEq, Option.some.injEq] at hs
    subst hs
    exact .run hpc
  | runner => exact runStep_effect hs
  | spuriousWorker i =>
    simp only [step] at hs
    split_ifs at hs with hb
    cases hs
    exact .spuriousWorker hb
  | spuriousRunner =>
    cases hpc : s.runner <;> simp only [step, hpc, reduceCtorEq, Option.some.injEq] at hs
    subst hs
    exact .spuriousRunner hpc

end Steps

/-- The call is in its locked region. -/
def callHolds (call : Option (SubmitPc α)) : Bool :=
  match call with
  | some (.add _) | some (.push _) => true
  | _ => false

def WorkerPc.holds : WorkerPc α → Bool
  | .check | .block | .take => true
  | .running _ call => callHolds call
  | _ => false

def RunPc.holds : RunPc → Bool
  | .reset | .check | .block | .setShutdown => true
  | _ => false

/-- The thread is in a region that `mu_` guards. -/
def State.holds (s : State ι α) : Thread ι → Bool
  | .runner => s.runner.holds
  | .worker i => (s.worker i).holds
  | .outside o => callHolds (s.outside o)

/-- What a worker knows of the predicate of `cv_` between its evaluation and the release of
`mu_`. -/
def Knows (s : State ι α) : WorkerPc α → Prop
  | .take => s.queue ≠ [] ∨ s.shutdown = true
  | .block => s.queue = [] ∧ s.shutdown = false
  | _ => True

/-- What the holder of `mu_` relies on, and what is known of `shutdown_` and the workers while
`run` closes. -/
structure Sync (s : State ι α) : Prop where
  guard : Exclusion.Guards s.mu s.holds
  knows : ∀ i, Knows s (s.worker i)
  zero : s.runner = .setShutdown → s.pending = 0
  closing : s.runner = .notifyAll ∨ (∃ i, s.runner = .join i) → s.shutdown = true
  awake : (∃ i, s.runner = .join i) → ∀ i, (s.worker i).isBlocked = false

section Guard
variable {s s' u : State ι α} {t : Thread ι} {i : ℕ} {pc : WorkerPc α}

theorem holds_setWorker_of_ne (h : t ≠ .worker i) : (s.setWorker i pc).holds t = s.holds t := by
  cases t with
  | worker j =>
    have hne : j ≠ i := fun he => h (he ▸ rfl)
    simp [State.holds, Function.update_of_ne hne]
  | _ => rfl

theorem holds_setWorker_same (h : pc.holds = (s.worker i).holds) :
    (s.setWorker i pc).holds t = s.holds t := by
  by_cases ht : t = .worker i
  · subst ht
    simpa [State.holds] using h
  · exact holds_setWorker_of_ne ht

theorem holds_setOutside_of_ne [DecidableEq ι] {o : ι} {call : Option (SubmitPc α)}
    (h : t ≠ .outside o) : (s.setOutside o call).holds t = s.holds t := by
  cases t with
  | outside o' =>
    have hne : o' ≠ o := fun he => h (he ▸ rfl)
    simp [State.holds, State.setOutside, Function.update_of_ne hne]
  | _ => rfl

theorem holds_setOutside_self [DecidableEq ι] {o : ι} {call : Option (SubmitPc α)} :
    (s.setOutside o call).holds (.outside o) = callHolds call := by
  simp [State.holds, State.setOutside]

theorem holds_of_isBlocked {w : WorkerPc α} (h : w.isBlocked) : w.holds = false := by
  cases w <;> simp_all [WorkerPc.isBlocked, WorkerPc.holds]

theorem WorkerPc.holds_wake (w : WorkerPc α) : w.wake.holds = w.holds := by
  cases w <;> rfl

theorem RunPc.holds_wake (r : RunPc) : r.wake.holds = r.holds := by
  cases r <;> rfl

theorem Submits.holds {wake : Option ℕ} {call : SubmitPc α} {rest : Option (SubmitPc α)}
    (hu : Submits s t wake call u rest) (v : Thread ι) : u.holds v = s.holds v := by
  cases hu with
  | notify hb => exact holds_setWorker_same (holds_of_isBlocked hb).symm
  | _ => rfl

theorem Submits.guard {wake : Option ℕ} {call : SubmitPc α} {rest : Option (SubmitPc α)}
    (hu : Submits s t wake call u rest) (h : Exclusion.Guards s.mu s.holds)
    (ht : s.holds t = callHolds (some call)) (hmu : s'.mu = u.mu)
    (ht' : s'.holds t = callHolds rest) (hin : ∀ v ≠ t, s'.holds v = u.holds v) :
    Exclusion.Guards s'.mu s'.holds := by
  have hother : ∀ v ≠ t, s'.holds v = s.holds v := fun v hv => (hin v hv).trans (hu.holds v)
  have hkeep : callHolds rest = callHolds (some call) → s'.mu = s.mu →
      Exclusion.Guards s'.mu s'.holds := by
    intro hsame hmu'
    rw [hmu']
    refine h.keep fun v => ?_
    rcases eq_or_ne v t with rfl | hv
    · rw [ht', ht, hsame]
    · exact hother v hv
  cases hu with
  | lock hfree =>
    rw [hfree] at h
    rw [hmu]
    exact h.acquire ht' hother
  | add => exact hkeep rfl hmu
  | push =>
    rw [hmu]
    exact h.release ht ht' hother
  | notify hb => exact hkeep rfl hmu
  | unheard hb => exact hkeep rfl hmu

theorem guard_step [DecidableEq ι] [Fintype ι] {a : Action ι α} (hinv : Inv s)
    (h : Exclusion.Guards s.mu s.holds) (he : Effect s a s') : Exclusion.Guards s'.mu s'.holds := by
  have hboth : ∀ {i : ℕ} {pc : WorkerPc α} {r : RunPc}, pc.holds = (s.worker i).holds →
      r.holds = s.runner.holds → Exclusion.Guards s.mu ({ s with runner := r }.setWorker i pc).holds := by
    intro i pc r hpc hr
    refine h.keep fun v => ?_
    rw [holds_setWorker_same (s := { s with runner := r }) hpc]
    cases v with
    | runner => exact hr
    | _ => rfl
  have hworker : ∀ {i : ℕ} {pc : WorkerPc α} {mu : Option (Thread ι)}, ∀ v ≠ .worker i,
      ({ s with mu := mu }.setWorker i pc).holds v = s.holds v :=
    fun v hv => holds_setWorker_of_ne hv
  have hrunner : ∀ {s' : State ι α}, s'.worker = s.worker → s'.outside = s.outside →
      ∀ v ≠ Thread.runner, s'.holds v = s.holds v := by
    intro s' hw ho v hv
    cases v with
    | runner => exact absurd rfl hv
    | worker i => simp only [State.holds, hw]
    | outside o => simp only [State.holds, ho]
  have hmove : ∀ {s' : State ι α}, s'.worker = s.worker → s'.outside = s.outside →
      s'.mu = s.mu → s'.runner.holds = s.runner.holds → Exclusion.Guards s'.mu s'.holds := by
    intro s' hw ho hmu hr
    rw [hmu]
    refine h.keep fun v => ?_
    by_cases hv : v = .runner
    · subst hv
      exact hr
    · exact hrunner hw ho v hv
  cases he with
  | @submit o task ho =>
    refine h.keep fun v => ?_
    by_cases hv : v = .outside o
    · subst hv
      rw [holds_setOutside_self, State.holds, ho]
      rfl
    · exact holds_setOutside_of_ne hv
  | outside ho hu =>
    refine hu.guard h ?_ rfl holds_setOutside_self fun v hv => holds_setOutside_of_ne hv
    simp [State.holds, ho]
  | spawn hpc => exact h.keep fun v => holds_setWorker_same (by rw [hpc]; rfl)
  | finish hpc => exact h.keep fun v => holds_setWorker_same (by rw [hpc]; rfl)
  | call hpc hu =>
    refine hu.guard h ?_ rfl ?_ fun v hv => holds_setWorker_of_ne hv
    · simp [State.holds, hpc, WorkerPc.holds]
    · simp [State.holds, WorkerPc.holds]
  | lock hpc hmu =>
    rw [hmu] at h
    exact h.acquire (by simp [State.holds, WorkerPc.holds]) hworker
  | found hpc hp => exact h.keep fun v => holds_setWorker_same (by rw [hpc]; rfl)
  | wait hpc hq hs => exact h.keep fun v => holds_setWorker_same (by rw [hpc]; rfl)
  | block hpc =>
    exact h.release (by simp only [State.holds, hpc]; rfl) (by simp [State.holds, WorkerPc.holds])
      hworker
  | take hpc hq =>
    exact h.release (by simp only [State.holds, hpc]; rfl)
      (by simp [State.holds, WorkerPc.holds, callHolds]) fun v hv => holds_setWorker_of_ne hv
  | exit hpc hq =>
    exact h.release (by simp only [State.holds, hpc]; rfl) (by simp [State.holds, WorkerPc.holds])
      hworker
  | last hpc hp => exact h.keep fun v => holds_setWorker_same (by rw [hpc]; rfl)
  | decrement hpc hp => exact h.keep fun v => holds_setWorker_same (by rw [hpc]; rfl)
  | notifyDone hpc => exact hboth (by rw [hpc]; rfl) s.runner.holds_wake
  | run hr => exact hmove rfl rfl rfl (by rw [hr]; rfl)
  | lockReset hr hmu =>
    rw [hmu] at h
    exact h.acquire rfl (hrunner rfl rfl)
  | reset hr => exact h.release (by simp only [State.holds, hr]; rfl) rfl (hrunner rfl rfl)
  | @launch i hr hi =>
    have hoff : s.worker i = .off := hinv.off i (by simp [Active, hr])
    exact hboth (by rw [hoff]; rfl) (by rw [hr]; rfl)
  | launched hr hi => exact hmove rfl rfl rfl (by rw [hr]; rfl)
  | lockWait hr hmu =>
    rw [hmu] at h
    exact h.acquire rfl (hrunner rfl rfl)
  | zero hr hp => exact hmove rfl rfl rfl (by rw [hr]; rfl)
  | positive hr hp => exact hmove rfl rfl rfl (by rw [hr]; rfl)
  | blockDone hr => exact h.release (by simp only [State.holds, hr]; rfl) rfl (hrunner rfl rfl)
  | setShutdown hr => exact h.release (by simp only [State.holds, hr]; rfl) rfl (hrunner rfl rfl)
  | notifyAll hr =>
    refine h.keep fun v => ?_
    cases v with
    | runner => simp only [State.holds, hr, RunPc.holds]
    | worker i => exact (s.worker i).holds_wake
    | outside o => rfl
  | join hr hi hw => exact hboth (by rw [hw]; rfl) (by rw [hr]; rfl)
  | ret hr hi => exact hmove rfl rfl rfl (by rw [hr]; rfl)
  | spuriousWorker hb => exact h.keep fun v => holds_setWorker_same (holds_of_isBlocked hb).symm
  | spuriousRunner hr => exact hmove rfl rfl rfl (by rw [hr]; rfl)

/-- What a step of a `submit` changes, and that it changes `queue_` and `pending_` only under
`mu_`. -/
theorem Submits.frame {wake : Option ℕ} {call : SubmitPc α} {rest : Option (SubmitPc α)}
    (hu : Submits s t wake call u rest) :
    u.shutdown = s.shutdown ∧ u.runner = s.runner ∧ s.queue <+: u.queue ∧
      (∀ i, u.worker i = s.worker i ∨ u.worker i = .woken) ∧
      (callHolds (some call) = false → u.queue = s.queue ∧ u.pending = s.pending) := by
  cases hu with
  | lock hfree => exact ⟨rfl, rfl, List.prefix_rfl, fun _ => .inl rfl, fun _ => ⟨rfl, rfl⟩⟩
  | add => exact ⟨rfl, rfl, List.prefix_rfl, fun _ => .inl rfl, fun hc => by cases hc⟩
  | push => exact ⟨rfl, rfl, List.prefix_append _ _, fun _ => .inl rfl, fun hc => by cases hc⟩
  | @notify i hb =>
    refine ⟨rfl, rfl, List.prefix_rfl, fun j => ?_, fun _ => ⟨rfl, rfl⟩⟩
    rcases eq_or_ne j i with rfl | hne
    · exact .inr (Function.update_self _ _ _)
    · exact .inl (Function.update_of_ne hne _ _)
  | unheard hb => exact ⟨rfl, rfl, List.prefix_rfl, fun _ => .inl rfl, fun _ => ⟨rfl, rfl⟩⟩

end Guard

section Sync
variable [Fintype ι] [DecidableEq ι] {s s' : State ι α} {a : Action ι α}

omit [DecidableEq ι] in
/-- With nothing pending, `queue_` is empty and no worker has a task. -/
theorem Inv.settled (h : Inv s) (hp : s.pending = 0) :
    s.queue = [] ∧ ∀ i, (s.worker i).owed = 0 := by
  have hcount := h.count
  rw [hp, accepted] at hcount
  have hw : 0 ≤ ∑ i ∈ Finset.range s.numWorkers, (s.worker i).owed :=
    Finset.sum_nonneg fun i _ => (s.worker i).owed_nonneg
  have ho : 0 ≤ ∑ o, callOwed (s.outside o) := Finset.sum_nonneg fun o _ => callOwed_nonneg _
  refine ⟨List.eq_nil_of_length_eq_zero (by omega), fun i => ?_⟩
  by_cases hi : i < s.numWorkers
  · have hzero : ∑ i ∈ Finset.range s.numWorkers, (s.worker i).owed = 0 := by omega
    exact (Finset.sum_eq_zero_iff_of_nonneg fun i _ => (s.worker i).owed_nonneg).mp hzero i
      (Finset.mem_range.mpr hi)
  · rw [h.off i fun hact => hi hact.1]
    rfl

omit [Fintype ι] in
theorem sync_init : Sync (machine ι α).init where
  guard t := by cases t <;> simp [machine, State.holds, RunPc.holds, WorkerPc.holds, callHolds]
  knows _ := trivial
  zero h := by cases h
  closing h := by rcases h with h | ⟨i, h⟩ <;> cases h
  awake h := by
    obtain ⟨i, h⟩ := h
    cases h

/-- The thread that makes the step. -/
def Action.mover {ι α : Type*} : Action ι α → Option (Thread ι)
  | .submit o _ | .outside o _ => some (.outside o)
  | .spawn i _ | .finish i | .worker i _ => some (.worker i)
  | .run _ | .runner => some .runner
  | .spuriousWorker _ | .spuriousRunner => none

omit [Fintype ι] in
/-- While a thread holds `mu_`, the others leave `queue_` and `shutdown_` alone and count nothing
in. -/
theorem frame_of_holds (h : Exclusion.Guards s.mu s.holds) (he : Effect s a s') {t : Thread ι}
    (ht : s.holds t) (hne : a.mover ≠ some t) :
    s'.queue = s.queue ∧ s'.shutdown = s.shutdown ∧ s'.pending ≤ s.pending := by
  have hother : ∀ t', a.mover = some t' → s.holds t' = false := by
    intro t' hm
    exact h.outside ht fun he => hne (he ▸ hm)
  cases he with
  | outside ho hu =>
    have hfree := hother _ rfl
    simp only [State.holds, ho] at hfree
    obtain ⟨hs, -, -, -, hkeep⟩ := hu.frame
    exact ⟨(hkeep hfree).1, hs, (hkeep hfree).2.le⟩
  | call hpc hu =>
    have hfree := hother _ rfl
    simp only [State.holds, hpc, WorkerPc.holds] at hfree
    obtain ⟨hs, -, -, -, hkeep⟩ := hu.frame
    exact ⟨(hkeep hfree).1, hs, (hkeep hfree).2.le⟩
  | take hpc hq =>
    have hfree := hother _ rfl
    simp [State.holds, hpc, WorkerPc.holds] at hfree
  | reset hr =>
    have hfree := hother _ rfl
    simp [State.holds, hr, RunPc.holds] at hfree
  | setShutdown hr =>
    have hfree := hother _ rfl
    simp [State.holds, hr, RunPc.holds] at hfree
  | last hpc hp => exact ⟨rfl, rfl, by simp⟩
  | decrement hpc hp => exact ⟨rfl, rfl, by simp⟩
  | _ => exact ⟨rfl, rfl, le_rfl⟩

omit [Fintype ι] in
/-- The other threads leave a worker alone, except that they launch, wake and join it. -/
theorem worker_of_other (he : Effect s a s') {i : ℕ} (hne : a.mover ≠ some (.worker i)) :
    s'.worker i = s.worker i ∨ s'.worker i = .woken ∨ s'.worker i = .lock ∨ s'.worker i = .off := by
  have hset : ∀ {u : State ι α} {j : ℕ} {pc : WorkerPc α}, j ≠ i →
      (u.setWorker j pc).worker i = u.worker i := fun hj => Function.update_of_ne hj.symm _ _
  have hself : ∀ {u : State ι α} {j : ℕ} {pc : WorkerPc α}, pc = .woken ∨ pc = .lock ∨ pc = .off →
      u.worker = s.worker → (u.setWorker j pc).worker i = s.worker i ∨
        (u.setWorker j pc).worker i = .woken ∨ (u.setWorker j pc).worker i = .lock ∨
          (u.setWorker j pc).worker i = .off := by
    intro u j pc hpc hu
    rcases eq_or_ne j i with rfl | hj
    · exact .inr (by simpa using hpc)
    · exact .inl ((hset hj).trans (congrFun hu i))
  have hmove : ∀ {j : ℕ}, a.mover = some (.worker j) → j ≠ i := by
    rintro j hm rfl
    exact hne hm
  cases he with
  | outside ho hu => exact (hu.frame.2.2.2.1 i).imp_right .inl
  | call hpc hu =>
    rw [hset (hmove rfl)]
    exact (hu.frame.2.2.2.1 i).imp_right .inl
  | launch hr hi => exact hself (.inr (.inl rfl)) rfl
  | join hr hi hw => exact hself (.inr (.inr rfl)) rfl
  | spuriousWorker hb => exact hself (.inl rfl) rfl
  | notifyAll hr =>
    change (s.worker i).wake = _ ∨ (s.worker i).wake = _ ∨ _
    cases s.worker i <;> simp [WorkerPc.wake]
  | spawn hpc => exact .inl (hset (hmove rfl))
  | finish hpc => exact .inl (hset (hmove rfl))
  | lock hpc hmu => exact .inl (hset (hmove rfl))
  | found hpc hp => exact .inl (hset (hmove rfl))
  | wait hpc hq hs => exact .inl (hset (hmove rfl))
  | block hpc => exact .inl (hset (hmove rfl))
  | take hpc hq => exact .inl (hset (hmove rfl))
  | exit hpc hq => exact .inl (hset (hmove rfl))
  | last hpc hp => exact .inl (hset (hmove rfl))
  | decrement hpc hp => exact .inl (hset (hmove rfl))
  | notifyDone hpc => exact .inl (hset (hmove rfl))
  | _ => exact .inl rfl

omit [Fintype ι] in
/-- A worker's own step: it knows the predicate it has evaluated, and blocks only after that. -/
theorem worker_of_mover (he : Effect s a s') {i : ℕ} (hm : a.mover = some (.worker i)) :
    Knows s' (s'.worker i) ∧ ((s'.worker i).isBlocked → s.worker i = .block) := by
  cases he with
  | outside ho hu => cases hm
  | submit ho => cases hm
  | found hpc hp =>
    cases hm
    exact ⟨by simpa [Knows] using hp, by simp [WorkerPc.isBlocked]⟩
  | wait hpc hq hs =>
    cases hm
    exact ⟨by simp [Knows, hq, hs], by simp [WorkerPc.isBlocked]⟩
  | block hpc =>
    cases hm
    exact ⟨by simp [Knows], fun _ => hpc⟩
  | _ => cases hm <;> simp [Knows, WorkerPc.isBlocked]

omit [Fintype ι] in
/-- The other threads leave `run` and `shutdown_` alone, except that they wake it. -/
theorem runner_of_other (he : Effect s a s') (hne : a.mover ≠ some .runner) :
    s'.shutdown = s.shutdown ∧ (s'.runner = s.runner ∨ s'.runner = .woken) := by
  cases he with
  | outside ho hu => exact ⟨hu.frame.1, .inl hu.frame.2.1⟩
  | call hpc hu => exact ⟨hu.frame.1, .inl hu.frame.2.1⟩
  | notifyDone hpc =>
    refine ⟨rfl, ?_⟩
    change s.runner.wake = _ ∨ s.runner.wake = _
    cases s.runner <;> simp [RunPc.wake]
  | spuriousRunner hr => exact ⟨rfl, .inr rfl⟩
  | run hr => exact absurd rfl hne
  | lockReset hr hmu => exact absurd rfl hne
  | reset hr => exact absurd rfl hne
  | launch hr hi => exact absurd rfl hne
  | launched hr hi => exact absurd rfl hne
  | lockWait hr hmu => exact absurd rfl hne
  | zero hr hp => exact absurd rfl hne
  | positive hr hp => exact absurd rfl hne
  | blockDone hr => exact absurd rfl hne
  | setShutdown hr => exact absurd rfl hne
  | notifyAll hr => exact absurd rfl hne
  | join hr hi hw => exact absurd rfl hne
  | ret hr hi => exact absurd rfl hne
  | _ => exact ⟨rfl, .inl rfl⟩

omit [Fintype ι] [DecidableEq ι] in
theorem Knows.of_frame {pc : WorkerPc α} (h : Knows s pc)
    (hsame : pc.holds → s'.queue = s.queue ∧ s'.shutdown = s.shutdown) : Knows s' pc := by
  cases pc with
  | take =>
    obtain ⟨hq, hd⟩ := hsame rfl
    simpa only [Knows, hq, hd] using h
  | block =>
    obtain ⟨hq, hd⟩ := hsame rfl
    simpa only [Knows, hq, hd] using h
  | _ => trivial

theorem sync_step (hi : Inv s) (h : Sync s) (hs : step s a = some s') : Sync s' := by
  have he := step_effect hs
  have hnonneg := (inv_step s a s' hi hs).pending_nonneg
  refine ⟨guard_step hi h.guard he, fun i => ?_, fun hr => ?_, fun hr => ?_, fun hr i => ?_⟩
  · by_cases hm : a.mover = some (.worker i)
    · exact (worker_of_mover he hm).1
    rcases worker_of_other he hm with hsame | hpc | hpc | hpc
    · rw [hsame]
      refine (h.knows i).of_frame fun hh => ?_
      have hframe := frame_of_holds h.guard he (t := .worker i) hh hm
      exact ⟨hframe.1, hframe.2.1⟩
    · rw [hpc]
      trivial
    · rw [hpc]
      trivial
    · rw [hpc]
      trivial
  · by_cases hm : a.mover = some .runner
    · cases he with
      | zero hr' hp => exact hp
      | _ => first | (simp [Action.mover] at hm; done) | cases hr
    · have hr' : s.runner = .setShutdown := by
        rcases (runner_of_other he hm).2 with hsame | hw
        · exact hsame.symm.trans hr
        · rw [hw] at hr
          cases hr
      have hle := (frame_of_holds h.guard he (t := .runner) (by simp only [State.holds, hr']; rfl) hm).2.2
      have hzero := h.zero hr'
      omega
  · by_cases hm : a.mover = some .runner
    · cases he with
      | setShutdown hr' => rfl
      | notifyAll hr' => exact h.closing (.inl hr')
      | join hr' hi hw => exact h.closing (.inr ⟨_, hr'⟩)
      | _ => first | (simp [Action.mover] at hm; done) | (rcases hr with hr | ⟨i, hr⟩ <;> cases hr)
    · obtain ⟨hd, hsame | hw⟩ := runner_of_other he hm
      · rw [hsame] at hr
        rw [hd]
        exact h.closing hr
      · rcases hr with hr | ⟨i, hr⟩ <;> rw [hw] at hr <;> cases hr
  · obtain ⟨k, hr⟩ := hr
    by_cases hm : a.mover = some .runner
    · cases he with
      | notifyAll hr' =>
        change (s.worker i).wake.isBlocked = false
        cases s.worker i <;> rfl
      | @join j hr' hi hw =>
        change (Function.update s.worker j .off i).isBlocked = false
        rcases eq_or_ne i j with rfl | hne
        · rw [Function.update_self]
          rfl
        · rw [Function.update_of_ne hne]
          exact h.awake ⟨_, hr'⟩ i
      | _ => first | (simp [Action.mover] at hm; done) | cases hr
    · obtain ⟨hd, hsame | hw⟩ := runner_of_other he hm
      · rw [hsame] at hr
        by_cases hmi : a.mover = some (.worker i)
        · by_contra hb
          have hblock := (worker_of_mover he hmi).2 (by simpa using hb)
          have hknows := h.knows i
          rw [hblock] at hknows
          have hclosing := h.closing (.inr ⟨k, hr⟩)
          rw [hknows.2] at hclosing
          cases hclosing
        · rcases worker_of_other he hmi with hw | hw | hw | hw <;> rw [hw]
          · exact h.awake ⟨k, hr⟩ i
          all_goals rfl
      · rw [hw] at hr
        cases hr

/-- Every reachable state has its locked regions in order. -/
theorem sync_of_run {tr : List (State ι α × Action ι α)} (h : Run (machine ι α) tr s) : Sync s := by
  refine (Run.invariant (I := fun s => Inv s ∧ Sync s) ⟨inv_init, sync_init⟩ ?_ h).2
  rintro u a v ⟨hi, hu⟩ hs
  exact ⟨inv_step u a v hi hs, sync_step hi hu hs⟩

end Sync

end TaskScheduler.MutexQueue
