import TaskScheduler.MutexFifo
import TaskScheduler.StealingFailures

/-!
# A submit that throws

`queue_.push` of MutexQueueScheduler may fail as well. After any number of failed calls of
`submit`, `pending_` of both schedulers is off by their number.
-/
namespace TaskScheduler.MutexQueue
open Transition

variable {ι α : Type*} {s s' u v w : State ι α} {t : Thread ι} {task : α}

/-- The step of a `submit` that counts its task in. -/
def callAdds : Option (SubmitPc α) → Option α
  | some (.add task) => some task
  | _ => none

/-- The task that a `submit` counts in by this step. -/
def added (s : State ι α) : Action ι α → Option α
  | .outside o _ => callAdds (s.call (.outside o))
  | .worker i _ => callAdds (s.call (.worker i))
  | _ => none

variable [DecidableEq ι]

def State.setCall (s : State ι α) : Thread ι → Option (SubmitPc α) → State ι α
  | .runner, _ => s
  | .worker i, c =>
    match s.worker i with
    | .running task _ => s.setWorker i (.running task c)
    | _ => s
  | .outside o, c => { s with outside := Function.update s.outside o c }

/-- `queue_.push` fails and the exception leaves `submit`, which releases `mu_`. A task that is
running has caught it. -/
def throw (s : State ι α) (t : Thread ι) : Option (State ι α) :=
  match s.call t with
  | some (.push _) => some ({ s with mu := none }.setCall t none)
  | _ => none

/-- The scheduler whose allocations may fail. -/
def failing (ι α : Type*) [DecidableEq ι] : Machine (State ι α) (Action ι α ⊕ Thread ι) :=
  (machine ι α).faulty throw

/-- The task of a `submit` that is left by an exception. -/
def failed (s : State ι α) (t : Thread ι) : Option α := callPushes (s.call t)

section Alone

/-- The thread is outside, or a worker in the middle of a task and in no `submit`. -/
def Ready (s : State ι α) (t : Thread ι) : Prop :=
  (∃ o, t = .outside o ∧ s.outside o = none) ∨
    ∃ i task, t = .worker i ∧ s.worker i = .running task none

theorem Ready.setCall (h : Ready s t) (c : Option (SubmitPc α)) : (s.setCall t c).call t = c := by
  rcases h with ⟨o, rfl, -⟩ | ⟨i, x, rfl, hw⟩
  · exact Function.update_self _ _ _
  · simp [State.setCall, State.call, hw]

theorem Ready.setCall_setCall (h : Ready s t) (c c' : Option (SubmitPc α)) :
    (s.setCall t c).setCall t c' = s.setCall t c' := by
  rcases h with ⟨o, rfl, -⟩ | ⟨i, x, rfl, hw⟩
  · simp [State.setCall]
  · simp [State.setCall, hw, State.setWorker]

theorem Ready.setCall_none (h : Ready s t) : s.setCall t none = s := by
  rcases h with ⟨o, rfl, ho⟩ | ⟨i, x, rfl, hw⟩
  · have hself : Function.update s.outside o none = s.outside :=
      Function.update_eq_iff.mpr ⟨ho.symm, fun _ _ => rfl⟩
    simp only [State.setCall, hself]
  · have hself : Function.update s.worker i (.running x none) = s.worker :=
      Function.update_eq_iff.mpr ⟨hw.symm, fun _ _ => rfl⟩
    simp only [State.setCall, hw, State.setWorker, hself]

/-- The call of `submit`, which `run` never makes. -/
def Thread.submit : Thread ι → α → Action ι α
  | .runner, _ => .runner
  | .worker i, task => .spawn i task
  | .outside o, task => .submit o task

/-- The next access of the thread in its `submit`. -/
def Thread.access : Thread ι → Action ι α
  | .runner => .runner
  | .worker i => .worker i none
  | .outside o => .outside o none

/-- A `submit` that its thread makes alone, from state `u` on, up to its push. -/
inductive During (u : State ι α) (t : Thread ι) : State ι α → Prop
  | lock (task : α) : During u t (u.setCall t (some (.lock task)))
  | add (hmu : u.mu = none) (task : α) :
      During u t ({ u with mu := some t }.setCall t (some (.add task)))
  | push (hmu : u.mu = none) (task : α) :
      During u t ({ u with mu := some t, pending := u.pending + 1 }.setCall t (some (.push task)))
  | pushed {w : State ι α} (hc : w.call t = some .notify ∨ w.call t = none) : During u t w

omit [DecidableEq ι] in
theorem Ready.congr {m : State ι α} (h : Ready s t) (hw : m.worker = s.worker)
    (ho : m.outside = s.outside) : Ready m t := by
  simpa only [Ready, hw, ho] using h

theorem Ready.lock {m : State ι α} (h : Ready m t)
    (hs : step (m.setCall t (some (.lock task))) t.access = some v) :
    m.mu = none ∧ v = { m with mu := some t }.setCall t (some (.add task)) := by
  by_cases hmu : m.mu = none
  · refine ⟨hmu, ?_⟩
    rcases h with ⟨o, rfl, -⟩ | ⟨i, x, rfl, hw⟩
    · simp only [State.setCall, Thread.access, step, Function.update_self, submitStep, hmu,
        if_true, Option.map_some, Option.some.injEq] at hs
      rw [← hs]
      simp [State.setCall]
    · simp only [State.setCall, hw, Thread.access, step, workerStep, setWorker_worker,
        Function.update_self, submitStep, setWorker_mu, hmu, if_true, Option.map_some,
        Option.some.injEq] at hs
      rw [← hs]
      simp [State.setCall, State.setWorker, hw]
  · rcases h with ⟨o, rfl, -⟩ | ⟨i, x, rfl, hw⟩
    · simp [State.setCall, Thread.access, step, submitStep, hmu] at hs
    · simp [State.setCall, hw, Thread.access, step, workerStep, submitStep, hmu] at hs

theorem Ready.add {m : State ι α} (h : Ready m t)
    (hs : step (m.setCall t (some (.add task))) t.access = some v) :
    v = { m with pending := m.pending + 1 }.setCall t (some (.push task)) := by
  rcases h with ⟨o, rfl, -⟩ | ⟨i, x, rfl, hw⟩
  · simp only [State.setCall, Thread.access, step, Function.update_self, submitStep] at hs
    cases hs
    simp [State.setCall]
  · simp only [State.setCall, hw, Thread.access, step, workerStep, setWorker_worker,
      Function.update_self, submitStep] at hs
    cases hs
    simp [State.setCall, State.setWorker, hw]

/-- Once the task is in `queue_`, the call does not come back to its push. -/
theorem call_of_pushed (hc : (∃ task, w.call t = some (.push task)) ∨ w.call t = some .notify ∨
    w.call t = none) (hs : step w t.access = some v) : v.call t = some .notify ∨ v.call t = none := by
  have he := step_effect hs
  cases t with
  | runner => exact .inr rfl
  | outside o =>
    cases he with
    | outside ho hu =>
      have hself := hc
      simp only [State.call, ho, Option.some.injEq, reduceCtorEq, or_false] at hself
      have hv : ∀ (u : State ι α) rest, (u.setOutside o rest).call (.outside o) = rest :=
        fun u rest => Function.update_self _ _ _
      rw [hv]
      cases hu with
      | lock => simp at hself
      | add => simp at hself
      | push => exact .inl rfl
      | unheard => exact .inr rfl
  | worker i =>
    have hv : ∀ (u : State ι α) pc, (u.setWorker i pc).call (.worker i) =
        match pc with
        | .running _ call => call
        | _ => none := by
      intro u pc
      cases pc <;> simp [State.call]
    cases he with
    | call hl hu =>
      have hself := hc
      simp only [State.call, hl, Option.some.injEq, reduceCtorEq, or_false] at hself
      rw [hv]
      cases hu with
      | lock => simp at hself
      | add => simp at hself
      | push => exact .inl rfl
      | unheard => exact .inr rfl
    | _ => exact .inr (hv _ _)

theorem During.step (h : During u t w) (hr : Ready u t)
    (hs : MutexQueue.step w t.access = some v) : During u t v := by
  cases h with
  | lock task =>
    obtain ⟨hmu, rfl⟩ := hr.lock hs
    exact .add hmu task
  | add hmu task =>
    have hr' : Ready { u with mu := some t } t := hr.congr rfl rfl
    obtain rfl := hr'.add hs
    exact .push hmu task
  | push hmu task =>
    have hr' : Ready { u with mu := some t, pending := u.pending + 1 } t := hr.congr rfl rfl
    exact .pushed (call_of_pushed (.inl ⟨task, hr'.setCall _⟩) hs)
  | pushed hc => exact .pushed (call_of_pushed (.inr hc) hs)

/-- An exception leaves everything as it was before the call but `pending_`. -/
theorem During.throw (h : During u t w) (hr : Ready u t)
    (hs : MutexQueue.throw w t = some v) : v = { u with pending := u.pending + 1 } := by
  cases h with
  | lock task => simp [MutexQueue.throw, hr.setCall] at hs
  | add hmu task =>
    have hr' : Ready { u with mu := some t } t := hr.congr rfl rfl
    simp [MutexQueue.throw, hr'.setCall] at hs
  | push hmu task =>
    have hr' : Ready { u with mu := some t, pending := u.pending + 1 } t := hr.congr rfl rfl
    have hfree : Ready { u with pending := u.pending + 1 } t := hr.congr rfl rfl
    simp only [MutexQueue.throw, hr'.setCall, Option.some.injEq] at hs
    rw [← hs, ← hfree.setCall_none]
    rcases hr with ⟨o, rfl, -⟩ | ⟨i, x, rfl, hw⟩
    · simp [State.setCall, hmu]
    · simp [State.setCall, hw, State.setWorker, hmu]
  | pushed hc =>
    rcases hc with hc | hc <;> simp [MutexQueue.throw, hc] at hs

/-- A `submit` that its thread makes alone and that an exception ends after `n` accesses. -/
def failedCall (t : Thread ι) (task : α) (n : ℕ) : List (Action ι α ⊕ Thread ι) :=
  .inl (t.submit task) :: (List.replicate n (.inl t.access) ++ [.inr t])

theorem failedCall_effect {n : ℕ} (hs : exec (failing ι α) s (failedCall t task n) = some v) :
    v = { s with pending := s.pending + 1 } := by
  obtain ⟨u, tr, w, hu, htr, hown, hv⟩ := exec_call hs
  have hthrow : throw w t = some v := hv
  have hcall : MutexQueue.step s (t.submit task) = some u := hu
  have hstart : Ready s t ∧ u = s.setCall t (some (.lock task)) := by
    have he := step_effect hcall
    cases t with
    | runner => cases hthrow
    | outside o =>
      cases he with
      | submit ho => exact ⟨.inl ⟨o, rfl, ho⟩, rfl⟩
    | worker i =>
      cases he with
      | spawn hw => exact ⟨.inr ⟨i, _, rfl, hw⟩, by simp [State.setCall, hw]⟩
  have hw : During s t w := by
    refine Steps.invariant_of (C := fun _ a => a = .inl t.access) (I := During s t) ?_ htr hown
      (hstart.2 ▸ .lock task)
    rintro x a y hd rfl hs
    exact hd.step hstart.1 hs
  exact hw.throw hstart.1 hthrow

end Alone

section Accounting

theorem effect_pending {a : Action ι α} (he : Effect s a s') :
    s'.pending + (counted s a).toList.length = s.pending + (added s a).toList.length := by
  cases he with
  | outside ho hu => cases hu <;> simp [counted, added, State.call, ho, callAdds, State.setOutside]
  | call hpc hu => cases hu <;> simp [counted, added, State.call, hpc, callAdds]
  | lock hpc hmu => rcases hpc with hpc | hpc <;> simp [counted, added, State.call, hpc, callAdds]
  | found hpc => simp [counted, added, State.call, hpc, callAdds]
  | wait hpc => simp [counted, added, State.call, hpc, callAdds]
  | block hpc => simp [counted, added, State.call, hpc, callAdds]
  | take hpc hq => simp [counted, added, State.call, hpc, callAdds]
  | exit hpc hq => simp [counted, added, State.call, hpc, callAdds]
  | last hpc hp => simp [counted, added, State.call, hpc, callAdds]
  | decrement hpc hp => simp [counted, added, State.call, hpc, callAdds]
  | notifyDone hpc => simp [counted, added, State.call, hpc, callAdds]
  | _ => rfl

/-- The tasks counted in so far whose `submit` has not failed and which have not been counted off. -/
def unfinished (tr : List (State ι α × (Action ι α ⊕ Thread ι))) : ℤ :=
  (log (onStep added) tr).length - (log (onFault failed) tr).length -
    (log (onStep counted) tr).length

theorem throw_pending (hs : throw s t = some s') : s'.pending = s.pending := by
  cases hc : s.call t with
  | none => simp [throw, hc] at hs
  | some pc =>
    cases pc with
    | push task =>
      simp only [throw, hc, Option.some.injEq] at hs
      subst hs
      cases t with
      | worker i => cases hw : s.worker i <;> simp [State.setCall, hw]
      | _ => rfl
    | _ => simp [throw, hc] at hs

/-- Every failed `submit` stays counted in `pending_`. -/
theorem pending_eq {tr : List (State ι α × (Action ι α ⊕ Thread ι))}
    (h : Run (failing ι α) tr s) :
    s.pending = unfinished tr + (log (onFault failed) tr).length := by
  have hcount : s.pending =
      (log (onStep added) tr).length - (log (onStep counted) tr).length := by
    refine Run.history (M := failing ι α) (I := fun tr s => s.pending =
      (log (onStep added) tr).length - (log (onStep counted) tr).length) rfl ?_ h
    intro tr u a v hu hs
    simp only [log_snoc, List.length_append]
    cases a with
    | inl a =>
      have hp := effect_pending (step_effect (s := u) (a := a) hs)
      simp only [onStep]
      push_cast
      omega
    | inr t =>
      have hp := throw_pending (s := u) (t := t) hs
      simp only [onStep, Option.toList_none, List.length_nil, add_zero, hp]
      exact hu
  rw [hcount, unfinished]
  ring

end Accounting

end TaskScheduler.MutexQueue

namespace TaskScheduler
open Transition

variable {ι ι' α α' : Type*} [DecidableEq ι] [DecidableEq ι']

/-- A failed `submit` stays counted, in both schedulers. Every state reached has `pending_` above
the number of accepted unfinished tasks by the number of failed calls, so it is this number, and
comes to zero with it, exactly where no call has failed; a call that fails in that state leaves it
with `pending_` one higher, and otherwise with the queues, the words of the deques, their live
arrays, the threads and the locks as they were. -/
theorem failed_submit_counted
    {tr : List (StealingDeques.State ι α × (StealingDeques.Action ι α ⊕ StealingDeques.Thread ι))}
    {s : StealingDeques.State ι α} (h : Run (StealingDeques.failing ι α) tr s)
    {rt : List (MutexQueue.State ι' α' × (MutexQueue.Action ι' α' ⊕ MutexQueue.Thread ι'))}
    {u : MutexQueue.State ι' α'} (hu : Run (MutexQueue.failing ι' α') rt u) :
    s.pending = StealingDeques.unfinished tr + (log (onFault StealingDeques.failed) tr).length ∧
      (s.pending = StealingDeques.unfinished tr ↔ log (onFault StealingDeques.failed) tr = []) ∧
      (∀ t task n v, exec (StealingDeques.failing ι α) s (StealingDeques.failedCall t task n) =
        some v → v.pending = s.pending + 1 ∧ StealingDeques.Kept s v) ∧
      u.pending = MutexQueue.unfinished rt + (log (onFault MutexQueue.failed) rt).length ∧
      (u.pending = MutexQueue.unfinished rt ↔ log (onFault MutexQueue.failed) rt = []) ∧
      ∀ t task n v, exec (MutexQueue.failing ι' α') u (MutexQueue.failedCall t task n) = some v →
        v = { u with pending := u.pending + 1 } := by
  have hs := StealingDeques.pending_eq h
  have hm := MutexQueue.pending_eq hu
  refine ⟨hs, ?_, fun t task n v hv => ?_, hm, ?_, fun t task n v hv => ?_⟩
  · rw [← List.length_eq_zero_iff]
    omega
  · exact StealingDeques.failedCall_effect (StealingDeques.inv_of_failing h) hv
  · rw [← List.length_eq_zero_iff]
    omega
  · exact MutexQueue.failedCall_effect hv

/-- The first `push_back` of an outside thread and the first push of another one fail. -/
theorem failed_submit_counted_first :
    ∃ s u, exec (StealingDeques.failing Unit ℕ) (StealingDeques.failing Unit ℕ).init
        (StealingDeques.failedCall (.outside ()) 7 3) = some s ∧
      exec (MutexQueue.failing Unit ℕ) (MutexQueue.failing Unit ℕ).init
        (MutexQueue.failedCall (.outside ()) 7 2) = some u ∧
      s.pending ≠ StealingDeques.unfinished (record (StealingDeques.failing Unit ℕ)
        (StealingDeques.failing Unit ℕ).init (StealingDeques.failedCall (.outside ()) 7 3)) ∧
      u.pending = 1 := by
  have hen : (exec (StealingDeques.failing Unit ℕ) (StealingDeques.failing Unit ℕ).init
      (StealingDeques.failedCall (.outside ()) 7 3)).isSome := by decide
  have hen' : (exec (MutexQueue.failing Unit ℕ) (MutexQueue.failing Unit ℕ).init
      (MutexQueue.failedCall (.outside ()) 7 2)).isSome := by decide
  obtain ⟨s, hs, hrun⟩ := exists_run hen
  obtain ⟨u, hu, hrun'⟩ := exists_run hen'
  have hleak := (failed_submit_counted hrun hrun').2.1
  have hkept := (failed_submit_counted hrun .nil).2.2.2.2.2 _ _ _ u hu
  refine ⟨s, u, hs, hu, fun he => ?_, by rw [hkept]; rfl⟩
  have hnone := hleak.mp he
  revert hnone
  decide

/-- An outside thread's `submit` to a fresh scheduler fails in `push_back` and leaves `pending_` at
one. -/
theorem exists_leak :
    ¬ ∀ (tr : List (StealingDeques.State Unit ℕ ×
        (StealingDeques.Action Unit ℕ ⊕ StealingDeques.Thread Unit)))
      (s : StealingDeques.State Unit ℕ), Run (StealingDeques.failing Unit ℕ) tr s →
      ∀ t task n v, exec (StealingDeques.failing Unit ℕ) s (StealingDeques.failedCall t task n) =
        some v → v.pending = s.pending := by
  intro h
  have hen : (exec (StealingDeques.failing Unit ℕ) (StealingDeques.failing Unit ℕ).init
      (StealingDeques.failedCall (.outside ()) 7 3)).any fun v => decide (v.pending = 1) := by
    decide
  obtain ⟨v, hv, hone⟩ := (Option.any_eq_true _ _).mp hen
  have hsame := h [] _ .nil _ _ _ v hv
  rw [of_decide_eq_true hone] at hsame
  exact absurd hsame (by decide)

end TaskScheduler
