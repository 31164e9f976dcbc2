import TaskScheduler.MutexInvariant

/-!
# The completion wake-up of MutexQueueScheduler

`worker_loop` counts a task off and notifies `done_cv_` without holding `mu_`, so the
notification can fall between the moment `run` finds `pending_` positive and the
moment it blocks. That is the only way to lose it.
-/
namespace TaskScheduler.MutexQueue
open Transition

variable {ι α : Type*}

/-- The worker has decremented `pending_` to zero and has yet to call
`done_cv_.notify_all()`. -/
def WorkerPc.owesNotify : WorkerPc α → Bool
  | .notifyDone => true
  | _ => false

def Owes (s : State ι α) (i : ℕ) : Prop := i < s.numWorkers ∧ (s.worker i).owesNotify

/-- `run` is blocked on `done_cv_` with nothing pending and no notification owed. -/
def Lost (s : State ι α) : Prop :=
  s.runner = .blocked ∧ s.pending = 0 ∧ ∀ i < s.numWorkers, ¬ (s.worker i).owesNotify

/-- The step notifies `done_cv_` while `run` has found its predicate false and has not yet
blocked, although nothing is pending any more and nobody else owes the notification. -/
def Missed (s : State ι α) : Action ι α → Prop
  | .worker i _ => (s.worker i).owesNotify ∧ s.runner = .block ∧ s.pending = 0 ∧
      ∀ j < s.numWorkers, j ≠ i → ¬ (s.worker j).owesNotify
  | _ => False

instance : DecidablePred (Lost (ι := ι) (α := α)) := fun _ =>
  inferInstanceAs (Decidable (_ ∧ _ ∧ _))

instance (s : State ι α) : DecidablePred (Missed s)
  | .worker _ _ => inferInstanceAs (Decidable (_ ∧ _ ∧ _ ∧ _))
  | .submit .. | .outside .. | .spawn .. | .finish .. | .run .. | .runner | .spuriousWorker ..
  | .spuriousRunner => .isFalse id

/-- `run` found its predicate false and has not been woken since. -/
def RunPc.waits : RunPc → Bool
  | .block | .blocked => true
  | _ => false

/-- While `run` waits with nothing pending, some worker owes the notification. -/
def Owed (s : State ι α) : Prop :=
  s.runner.waits → s.pending = 0 → ∃ i, Owes s i

/-- A step that neither makes `run` wait, nor moves `pending_`, nor settles a notification. -/
structure Quiet (s s' : State ι α) : Prop where
  waits : s'.runner.waits → s.runner.waits
  pending : s'.pending = s.pending
  owes : ∀ i, Owes s i → Owes s' i

theorem Owed.quiet {s s' : State ι α} (h : Owed s) (hq : Quiet s s') : Owed s' := by
  intro hw hp
  obtain ⟨i, hi⟩ := h (hq.waits hw) (hq.pending ▸ hp)
  exact ⟨i, hq.owes i hi⟩

theorem Owed.of_not_waits {s : State ι α} (h : s.runner.waits = false) : Owed s := by
  intro hw
  rw [h] at hw
  cases hw

theorem Owed.of_pending_pos {s : State ι α} (h : 0 < s.pending) : Owed s := by
  intro _ hp
  omega

/-- A step of a worker that owes nothing, within the frame of a submit. -/
theorem Quiet.of_worker {s s' : State ι α} {i : ℕ} {pc : WorkerPc α}
    (hi : (s.worker i).owesNotify = false) (hr : s'.runner = s.runner)
    (hp : s'.pending = s.pending) (hn : s'.numWorkers = s.numWorkers)
    (hw : ∀ j, (s.worker j).isBlocked = false → s'.worker j = s.worker j) :
    Quiet s (s'.setWorker i pc) where
  waits := by simp [hr]
  pending := hp
  owes j hj := by
    obtain ⟨hlt, ho⟩ := hj
    have hne : j ≠ i := by
      rintro rfl
      simp [hi] at ho
    have hb : (s.worker j).isBlocked = false := by
      cases hpc : s.worker j <;> simp_all [WorkerPc.owesNotify, WorkerPc.isBlocked]
    refine ⟨hn ▸ hlt, ?_⟩
    simpa only [setWorker_worker, Function.update_of_ne hne, hw j hb] using ho

/-- A step of a `submit` either counts a task in or leaves the counter alone. -/
theorem submitStep_pending {s s' : State ι α} {t : Thread ι} {wake : Option ℕ}
    {call : SubmitPc α} {rest : Option (SubmitPc α)}
    (h : submitStep s t wake call = some (s', rest)) :
    s'.pending = s.pending ∨ s'.pending = s.pending + 1 := by
  cases call with
  | lock task =>
    simp only [submitStep] at h
    split_ifs at h
    cases h
    exact .inl rfl
  | add task =>
    cases h
    exact .inr rfl
  | push task =>
    cases h
    exact .inl rfl
  | notify =>
    simp only [submitStep, Option.map_eq_some_iff, Prod.mk.injEq] at h
    obtain ⟨v, hv, rfl, rfl⟩ := h
    cases wake with
    | none =>
      simp only [notifyOne] at hv
      split_ifs at hv
      cases hv
      exact .inl rfl
    | some i =>
      simp only [notifyOne] at hv
      split_ifs at hv
      cases hv
      exact .inl rfl

variable [Fintype ι]

/-- The notification of `done_cv_` apart, a worker's step is quiet or leaves it owed. -/
theorem workerStep_owed {s s' : State ι α} (h : Inv s) {i : ℕ} {wake : Option ℕ}
    (hi : (s.worker i).owesNotify = false)
    (hs : workerStep s i wake (s.worker i) = some s') : Quiet s s' ∨ Owed s' := by
  cases hpc : s.worker i with
  | decrement =>
    simp only [workerStep, hpc, Option.some.injEq] at hs
    subst hs
    have hlt : i < s.numWorkers := h.lt (by simp [hpc])
    refine .inr fun _ hzero => ⟨i, hlt, ?_⟩
    have hp : s.pending - 1 = 0 := hzero
    simp [hp, WorkerPc.owesNotify]
  | running task call =>
    cases call with
    | none => simp [workerStep, hpc] at hs
    | some call =>
      simp only [workerStep, hpc, Option.map_eq_some_iff, Prod.exists] at hs
      obtain ⟨v, rest, hv, rfl⟩ := hs
      obtain ⟨_, hn, hr, _, hw⟩ := submitStep_spec hv
      rcases submitStep_pending hv with hp | hp
      · exact .inl (Quiet.of_worker hi hr hp hn hw)
      · refine .inr (Owed.of_pending_pos ?_)
        have := h.pending_nonneg
        simp only [setWorker_pending]
        omega
  | notifyDone => simp [hpc, WorkerPc.owesNotify] at hi
  | lock =>
    simp only [workerStep, hpc] at hs
    split_ifs at hs
    cases hs
    exact .inl (Quiet.of_worker hi rfl rfl rfl fun _ _ => rfl)
  | check =>
    simp only [workerStep, hpc] at hs
    split_ifs at hs <;> cases hs <;>
    exact .inl (Quiet.of_worker hi rfl rfl rfl fun _ _ => rfl)
  | block =>
    simp only [workerStep, hpc, Option.some.injEq] at hs
    subst hs
    exact .inl (Quiet.of_worker hi rfl rfl rfl fun _ _ => rfl)
  | woken =>
    simp only [workerStep, hpc] at hs
    split_ifs at hs
    cases hs
    exact .inl (Quiet.of_worker hi rfl rfl rfl fun _ _ => rfl)
  | take =>
    simp only [workerStep, hpc] at hs
    cases hq : s.queue <;> simp only [hq, Option.some.injEq] at hs <;> subst hs <;>
    exact .inl (Quiet.of_worker hi rfl rfl rfl fun _ _ => rfl)
  | off => simp [workerStep, hpc] at hs
  | blocked => simp [workerStep, hpc] at hs
  | exited => simp [workerStep, hpc] at hs

omit [Fintype ι] in
/-- `run` begins to wait only where it reads a nonzero counter. -/
theorem runStep_owed {s s' : State ι α} (h : Owed s) (hs : runStep s s.runner = some s') :
    Owed s' := by
  cases hpc : s.runner with
  | check =>
    simp only [runStep, hpc, Option.some.injEq] at hs
    subst hs
    split_ifs with hp
    · exact .of_not_waits rfl
    · exact fun _ hzero => absurd hzero hp
  | block =>
    simp only [runStep, hpc, Option.some.injEq] at hs
    subst hs
    exact h.quiet ⟨fun _ => by rw [hpc]; rfl, rfl, fun _ hi => hi⟩
  | idle => simp [runStep, hpc] at hs
  | blocked => simp [runStep, hpc] at hs
  | spawn k =>
    simp only [runStep, hpc] at hs
    split_ifs at hs <;> cases hs <;> exact .of_not_waits rfl
  | join k =>
    simp only [runStep, hpc] at hs
    split_ifs at hs <;> cases hs <;> exact .of_not_waits rfl
  | lockReset =>
    simp only [runStep, hpc] at hs
    split_ifs at hs
    cases hs
    exact .of_not_waits rfl
  | lockWait =>
    simp only [runStep, hpc] at hs
    split_ifs at hs
    cases hs
    exact .of_not_waits rfl
  | woken =>
    simp only [runStep, hpc] at hs
    split_ifs at hs
    cases hs
    exact .of_not_waits rfl
  | reset =>
    simp only [runStep, hpc, Option.some.injEq] at hs
    subst hs
    exact .of_not_waits rfl
  | setShutdown =>
    simp only [runStep, hpc, Option.some.injEq] at hs
    subst hs
    exact .of_not_waits rfl
  | notifyAll =>
    simp only [runStep, hpc, Option.some.injEq] at hs
    subst hs
    exact .of_not_waits rfl

omit [Fintype ι] in
/-- A notification of `done_cv_` that is not missed finds `run` blocked and wakes it, or
finds that `run` need not be woken by it. -/
theorem notifyDone_owed {s : State ι α} {i : ℕ} {wake : Option ℕ}
    (hi : (s.worker i).owesNotify) (hm : ¬ Missed s (.worker i wake)) :
    Owed ({ s with runner := s.runner.wake }.setWorker i .lock) := by
  intro hw hp
  have hblock : s.runner = .block := by
    cases hr : s.runner <;> simp_all [RunPc.wake, RunPc.waits]
  have hother : ∃ j < s.numWorkers, j ≠ i ∧ (s.worker j).owesNotify := by
    by_contra hnone
    push Not at hnone
    exact hm ⟨hi, hblock, hp, fun j hj hne => by simpa using hnone j hj hne⟩
  obtain ⟨j, hj, hne, ho⟩ := hother
  exact ⟨j, hj, by simpa only [setWorker_worker, Function.update_of_ne hne] using ho⟩

variable [DecidableEq ι]

/-- Every step but a missed notification keeps the notification owed. -/
theorem step_owed {s s' : State ι α} {a : Action ι α} (h : Inv s) (ho : Owed s)
    (hm : ¬ Missed s a) (hs : step s a = some s') : Owed s' := by
  cases a with
  | submit o task =>
    cases hout : s.outside o <;> simp only [step, hout, reduceCtorEq, Option.some.injEq] at hs
    subst hs
    exact ho.quiet ⟨id, rfl, fun _ hi => hi⟩
  | outside o wake =>
    cases hout : s.outside o with
    | none => simp [step, hout] at hs
    | some call =>
      simp only [step, hout, Option.map_eq_some_iff, Prod.exists] at hs
      obtain ⟨v, rest, hv, rfl⟩ := hs
      obtain ⟨_, hn, hr, _, hw⟩ := submitStep_spec hv
      rcases submitStep_pending hv with hp | hp
      · refine ho.quiet ⟨by simp [hr], hp, fun j hj => ⟨hn ▸ hj.1, ?_⟩⟩
        have hb : (s.worker j).isBlocked = false := by
          have := hj.2
          cases hpc : s.worker j <;> simp_all [WorkerPc.owesNotify, WorkerPc.isBlocked]
        change (v.worker j).owesNotify
        rw [hw j hb]
        exact hj.2
      · refine .of_pending_pos ?_
        have := h.pending_nonneg
        change 0 < v.pending
        omega
  | spawn i task =>
    cases hpc : s.worker i <;> simp only [step, hpc, reduceCtorEq] at hs
    rename_i x call
    cases call <;> simp only [reduceCtorEq, Option.some.injEq] at hs
    subst hs
    exact ho.quiet (.of_worker (by rw [hpc]; rfl) rfl rfl rfl fun _ _ => rfl)
  | finish i =>
    cases hpc : s.worker i <;> simp only [step, hpc, reduceCtorEq] at hs
    rename_i x call
    cases call <;> simp only [reduceCtorEq, Option.some.injEq] at hs
    subst hs
    exact ho.quiet (.of_worker (by rw [hpc]; rfl) rfl rfl rfl fun _ _ => rfl)
  | worker i wake =>
    cases hi : (s.worker i).owesNotify with
    | false =>
      rcases workerStep_owed h hi hs with hq | ho'
      · exact ho.quiet hq
      · exact ho'
    | true =>
      have hpc : s.worker i = .notifyDone := by
        cases hpc : s.worker i <;> simp_all [WorkerPc.owesNotify]
      simp only [step, hpc, workerStep, Option.some.injEq] at hs
      subst hs
      exact notifyDone_owed hi hm
  | run n =>
    cases hpc : s.runner <;> simp only [step, hpc, reduceCtorEq, Option.some.injEq] at hs
    subst hs
    exact .of_not_waits rfl
  | runner => exact runStep_owed ho hs
  | spuriousWorker i =>
    simp only [step] at hs
    split_ifs at hs with hb
    cases hs
    refine ho.quiet (.of_worker ?_ rfl rfl rfl fun _ _ => rfl)
    cases hpc : s.worker i <;> simp_all [WorkerPc.owesNotify, WorkerPc.isBlocked]
  | spuriousRunner =>
    cases hpc : s.runner <;> simp only [step, hpc, reduceCtorEq, Option.some.injEq] at hs
    subst hs
    exact .of_not_waits rfl

theorem owed_of_run {tr : List (State ι α × Action ι α)} {s : State ι α}
    (h : Run (machine ι α) tr s) (hm : ∀ e ∈ tr, ¬ Missed e.1 e.2) : Owed s := by
  refine (Steps.invariant_of (I := fun s => Inv s ∧ Owed s) (C := fun s a => ¬ Missed s a)
    ?_ h hm ⟨inv_init, .of_not_waits rfl⟩).2
  rintro u a v ⟨hinv, ho⟩ hm hs
  exact ⟨inv_step u a v hinv hs, step_owed hinv ho hm hs⟩

omit [Fintype ι] in
/-- Right after a missed notification `run` can only block, for good. -/
theorem lost_of_missed {s s' : State ι α} {a : Action ι α} (hm : Missed s a)
    (hs : step s a = some s') : ∃ v, step s' .runner = some v ∧ Lost v := by
  cases a with
  | worker i wake =>
    obtain ⟨hi, hr, hp, hnone⟩ := hm
    have hpc : s.worker i = .notifyDone := by
      cases hpc : s.worker i <;> simp_all [WorkerPc.owesNotify]
    simp only [step, hpc, workerStep, Option.some.injEq] at hs
    subst hs
    refine ⟨{ s.setWorker i .lock with mu := none, runner := .blocked }, ?_, rfl, hp, ?_⟩
    · simp only [step, setWorker_runner, hr, RunPc.wake, runStep]
      rfl
    intro j hj
    rcases eq_or_ne j i with rfl | hne
    · simp [WorkerPc.owesNotify]
    · simpa [Function.update_of_ne hne] using hnone j hj hne
  | _ => exact hm.elim

/-- The completion wake-up is lost exactly through a missed notification: a run without one
never has `run` blocked with nothing pending and nothing owed, and after one the next step
of `run` blocks it in that state. -/
theorem completion_not_lost {tr : List (State ι α × Action ι α)} {s : State ι α}
    (h : Run (machine ι α) tr s) :
    ((∀ e ∈ tr, ¬ Missed e.1 e.2) → ¬ Lost s) ∧
      ∀ pre u a, tr = pre ++ [(u, a)] → Missed u a → ∃ v, step s .runner = some v ∧ Lost v := by
  refine ⟨fun hm hl => ?_, ?_⟩
  · obtain ⟨hr, hp, hnone⟩ := hl
    obtain ⟨i, hi, ho⟩ := owed_of_run h hm (by rw [hr]; rfl) hp
    exact hnone i hi ho
  · rintro pre u a rfl hm
    exact lost_of_missed hm h.last.2

/-- One task and one worker: the task is taken before `run` reads `pending_`. -/
def takenSchedule : List (Action (Fin 1) ℕ) :=
  List.flatten [[.submit 0 7], List.replicate 4 (.outside 0 none), [.run 1],
    List.replicate 4 .runner, List.replicate 3 (.worker 0 none), List.replicate 2 .runner]

/-- The worker notifies once `run` is blocked, and `run` goes on to its end. -/
def wokenSchedule : List (Action (Fin 1) ℕ) :=
  List.flatten [takenSchedule, [.runner, .finish 0], List.replicate 2 (.worker 0 none),
    List.replicate 4 .runner, List.replicate 3 (.worker 0 none), List.replicate 2 .runner]

theorem completion_not_lost_woken :
    ∃ s, exec (machine (Fin 1) ℕ) (machine (Fin 1) ℕ).init wokenSchedule = some s ∧
      s.runner = .idle ∧ ¬ Lost s := by
  have hen : (exec (machine (Fin 1) ℕ) (machine (Fin 1) ℕ).init wokenSchedule).any
      fun s => s.runner = .idle := by decide
  obtain ⟨s, hs, hidle⟩ := (Option.any_eq_true _ _).mp hen
  refine ⟨s, hs, by simpa using hidle, (completion_not_lost (exec_steps hs)).1 ?_⟩
  decide

/-- The worker counts the task off and notifies before `run` has blocked. -/
def missedSchedule : List (Action (Fin 1) ℕ) :=
  List.flatten [takenSchedule, [.finish 0], List.replicate 2 (.worker 0 none), [.runner]]

/-- A completion wake-up is lost without any spurious wake-up. -/
theorem completion_lost :
    ¬ ∀ (tr : List (State (Fin 1) ℕ × Action (Fin 1) ℕ)) (s : State (Fin 1) ℕ),
      Run (machine (Fin 1) ℕ) tr s → (∀ e ∈ tr, e.2.isSpurious = false) → ¬ Lost s := by
  intro h
  have hlost : (exec (machine (Fin 1) ℕ) (machine (Fin 1) ℕ).init missedSchedule).any
      fun s => decide (Lost s) := by decide
  obtain ⟨s, hs, hl⟩ := (Option.any_eq_true _ _).mp hlost
  exact h _ s (exec_steps hs) (by decide) (of_decide_eq_true hl)

end TaskScheduler.MutexQueue
