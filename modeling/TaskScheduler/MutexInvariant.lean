import TaskScheduler.Counting
import TaskScheduler.MutexModel

/-!
# The counter of MutexQueueScheduler

`pending_` is the number of queued tasks, of tasks taken and not yet counted off, and of
submits between their increment and their push, in every reachable state.
-/
namespace TaskScheduler.MutexQueue
open Transition

variable {ι α : Type*}

/-- One task is counted in `pending_` and not yet in `queue_`. -/
def SubmitPc.owed : SubmitPc α → ℤ
  | .push _ => 1
  | _ => 0

def callOwed (call : Option (SubmitPc α)) : ℤ := call.elim 0 SubmitPc.owed

def WorkerPc.owed : WorkerPc α → ℤ
  | .running _ call => 1 + callOwed call
  | .decrement => 1
  | _ => 0

/-- The workers between their launch and their join. -/
def Active (s : State ι α) (i : ℕ) : Prop :=
  i < s.numWorkers ∧
    match s.runner with
    | .idle | .lockReset | .reset => False
    | .spawn k => i < k
    | .join k => k ≤ i
    | _ => True

variable [Fintype ι]

/-- The tasks accepted and not yet counted off. -/
def accepted (s : State ι α) : ℤ :=
  s.queue.length + ∑ i ∈ Finset.range s.numWorkers, (s.worker i).owed +
    ∑ o, callOwed (s.outside o)

structure Inv (s : State ι α) : Prop where
  off : ∀ i, ¬ Active s i → s.worker i = .off
  count : s.pending = accepted s

omit [Fintype ι] in
theorem callOwed_nonneg (call : Option (SubmitPc α)) : 0 ≤ callOwed call := by
  rcases call with _ | call
  · exact le_rfl
  · cases call <;> simp [callOwed, SubmitPc.owed]

theorem WorkerPc.owed_nonneg (pc : WorkerPc α) : 0 ≤ pc.owed := by
  cases pc with
  | running task call =>
    have := callOwed_nonneg call
    simp only [WorkerPc.owed]
    omega
  | _ => simp [WorkerPc.owed]

theorem WorkerPc.owed_wake (pc : WorkerPc α) : pc.wake.owed = pc.owed := by
  cases pc <;> rfl

theorem WorkerPc.owed_of_isBlocked {pc : WorkerPc α} (h : pc.isBlocked) : pc.owed = 0 := by
  cases pc <;> simp_all [WorkerPc.isBlocked, WorkerPc.owed]

theorem accepted_nonneg (s : State ι α) : 0 ≤ accepted s := by
  have hw : 0 ≤ ∑ i ∈ Finset.range s.numWorkers, (s.worker i).owed :=
    Finset.sum_nonneg fun i _ => (s.worker i).owed_nonneg
  have ho : 0 ≤ ∑ o, callOwed (s.outside o) := Finset.sum_nonneg fun o _ => callOwed_nonneg _
  unfold accepted
  omega

theorem Inv.pending_nonneg {s : State ι α} (h : Inv s) : 0 ≤ s.pending :=
  h.count ▸ accepted_nonneg s

/-- A worker that is not `off` is one of those that were launched. -/
theorem Inv.lt {s : State ι α} (h : Inv s) {i : ℕ} (hi : s.worker i ≠ .off) :
    i < s.numWorkers := by
  by_contra hge
  exact hi (h.off i fun hact => hge hact.1)

theorem accepted_setWorker {s : State ι α} {i : ℕ} (hi : i < s.numWorkers) (pc : WorkerPc α) :
    accepted (s.setWorker i pc) + (s.worker i).owed = accepted s + pc.owed := by
  have hsum := Counting.sum_update (Finset.mem_range.mpr hi) s.worker pc WorkerPc.owed
  simp only [accepted, setWorker_queue, setWorker_numWorkers, setWorker_worker,
    setWorker_outside]
  omega

/-- What one step of a `submit` leaves alone, and how it moves the balance between the
accepted tasks and `pending_`. -/
theorem submitStep_spec {s s' : State ι α} {t : Thread ι} {wake : Option ℕ} {call : SubmitPc α}
    {rest : Option (SubmitPc α)} (h : submitStep s t wake call = some (s', rest)) :
    accepted s' - s'.pending + callOwed rest = accepted s - s.pending + call.owed ∧
      s'.numWorkers = s.numWorkers ∧ s'.runner = s.runner ∧ s'.outside = s.outside ∧
      (∀ j, (s.worker j).isBlocked = false → s'.worker j = s.worker j) := by
  cases call with
  | lock task =>
    simp only [submitStep] at h
    split_ifs at h
    cases h
    exact ⟨by simp [accepted, callOwed, SubmitPc.owed], rfl, rfl, rfl, fun _ _ => rfl⟩
  | add task =>
    cases h
    refine ⟨?_, rfl, rfl, rfl, fun _ _ => rfl⟩
    simp only [accepted, callOwed, SubmitPc.owed, Option.elim_some]
    omega
  | push task =>
    cases h
    refine ⟨?_, rfl, rfl, rfl, fun _ _ => rfl⟩
    simp only [accepted, callOwed, SubmitPc.owed, Option.elim_some, List.length_append,
      List.length_singleton]
    push_cast
    omega
  | notify =>
    simp only [submitStep, Option.map_eq_some_iff, Prod.mk.injEq] at h
    obtain ⟨v, hv, rfl, rfl⟩ := h
    cases wake with
    | none =>
      simp only [notifyOne] at hv
      split_ifs at hv
      cases hv
      exact ⟨by simp [callOwed, SubmitPc.owed], rfl, rfl, rfl, fun _ _ => rfl⟩
    | some i =>
      simp only [notifyOne] at hv
      split_ifs at hv with hb
      cases hv
      have hsame : accepted (s.setWorker i .woken) = accepted s := by
        have hw : ∑ j ∈ Finset.range s.numWorkers,
            (Function.update s.worker i .woken j).owed =
              ∑ j ∈ Finset.range s.numWorkers, (s.worker j).owed :=
          Counting.sum_update_same (w := WorkerPc.owed) _
            (WorkerPc.owed_of_isBlocked hb).symm
        simp only [accepted, setWorker_queue, setWorker_numWorkers, setWorker_worker,
          setWorker_outside, hw]
      refine ⟨by simp [hsame, callOwed, SubmitPc.owed], rfl, rfl, rfl, fun j hj => ?_⟩
      refine Function.update_of_ne ?_ _ _
      rintro rfl
      simp [hb] at hj

theorem inv_init [DecidableEq ι] : Inv (machine ι α).init where
  off _ _ := rfl
  count := by simp [machine, accepted, callOwed]

/-- A step of a launched worker keeps the invariant when it moves the balance by as much as
the worker's own weight changes. -/
theorem Inv.of_worker {s s' : State ι α} (h : Inv s) {i : ℕ} {pc : WorkerPc α}
    (hi : s.worker i ≠ .off) (hn : s'.numWorkers = s.numWorkers)
    (hr : ∀ k, Active s k → Active s' k) (hw : ∀ j, s.worker j = .off → s'.worker j = .off)
    (hi' : s'.worker i = s.worker i)
    (hc : accepted s' - s'.pending + pc.owed = accepted s - s.pending + (s.worker i).owed) :
    Inv (s'.setWorker i pc) where
  off k hk := by
    have hne : k ≠ i := by
      rintro rfl
      exact hi (h.off k fun hact => hk (hr k hact))
    simp only [setWorker_worker, Function.update_of_ne hne]
    exact hw k (h.off k fun hact => hk (hr k hact))
  count := by
    have hacc := accepted_setWorker (hn.symm ▸ h.lt hi) pc
    have hcount := h.count
    rw [hi'] at hacc
    simp only [setWorker_pending]
    omega

theorem workerStep_inv {s s' : State ι α} (h : Inv s) {i : ℕ} {wake : Option ℕ}
    (hs : workerStep s i wake (s.worker i) = some s') : Inv s' := by
  cases hpc : s.worker i with
  | lock =>
    simp only [workerStep, hpc] at hs
    split_ifs at hs
    cases hs
    exact h.of_worker (by simp [hpc]) rfl (fun _ hk => hk) (fun _ hj => hj) rfl
      (by simp [hpc, accepted, WorkerPc.owed])
  | check =>
    simp only [workerStep, hpc] at hs
    split_ifs at hs <;> cases hs <;>
    exact h.of_worker (by simp [hpc]) rfl (fun _ hk => hk) (fun _ hj => hj) rfl
      (by simp [hpc, WorkerPc.owed])
  | block =>
    simp only [workerStep, hpc, Option.some.injEq] at hs
    subst hs
    exact h.of_worker (by simp [hpc]) rfl (fun _ hk => hk) (fun _ hj => hj) rfl
      (by simp [hpc, accepted, WorkerPc.owed])
  | woken =>
    simp only [workerStep, hpc] at hs
    split_ifs at hs
    cases hs
    exact h.of_worker (by simp [hpc]) rfl (fun _ hk => hk) (fun _ hj => hj) rfl
      (by simp [hpc, accepted, WorkerPc.owed])
  | take =>
    simp only [workerStep, hpc] at hs
    cases hq : s.queue with
    | nil =>
      simp only [hq, Option.some.injEq] at hs
      subst hs
      exact h.of_worker (by simp [hpc]) rfl (fun _ hk => hk) (fun _ hj => hj) rfl
        (by simp [hpc, accepted, WorkerPc.owed, hq])
    | cons task rest =>
      simp only [hq, Option.some.injEq] at hs
      subst hs
      refine h.of_worker (by simp [hpc]) rfl (fun _ hk => hk) (fun _ hj => hj) rfl ?_
      simp only [hpc, accepted, WorkerPc.owed, callOwed, hq, List.length_cons, Option.elim_none]
      push_cast
      omega
  | running task call =>
    cases call with
    | none => simp [workerStep, hpc] at hs
    | some call =>
      simp only [workerStep, hpc, Option.map_eq_some_iff, Prod.exists] at hs
      obtain ⟨v, rest, hv, rfl⟩ := hs
      obtain ⟨hc, hn, hr, _, hw⟩ := submitStep_spec hv
      refine h.of_worker (by simp [hpc]) hn (fun k hk => ?_) (fun j hj => ?_) ?_ ?_
      · simpa only [Active, hn, hr] using hk
      · rw [hw j (by rw [hj]; rfl), hj]
      · exact hw i (by rw [hpc]; rfl)
      · simp only [hpc, WorkerPc.owed, callOwed, Option.elim_some] at hc ⊢
        omega
  | decrement =>
    simp only [workerStep, hpc, Option.some.injEq] at hs
    subst hs
    refine h.of_worker (by simp [hpc]) rfl (fun _ hk => hk) (fun _ hj => hj) rfl ?_
    have hzero : (if s.pending - 1 = 0 then WorkerPc.notifyDone else .lock : WorkerPc α).owed = 0 := by
      split_ifs <;> rfl
    rw [hzero]
    simp only [hpc, accepted, WorkerPc.owed]
    omega
  | notifyDone =>
    simp only [workerStep, hpc, Option.some.injEq] at hs
    subst hs
    refine h.of_worker (by simp [hpc]) rfl (fun k hk => ?_) (fun _ hj => hj) rfl
      (by simp [hpc, accepted, WorkerPc.owed])
    cases hr : s.runner <;> simp_all [Active, RunPc.wake]
  | off => simp [workerStep, hpc] at hs
  | blocked => simp [workerStep, hpc] at hs
  | exited => simp [workerStep, hpc] at hs

/-- What `run` does to a worker is to launch it, to wake it or to join it. -/
theorem Inv.of_runner {s s' : State ι α} (h : Inv s) (hq : s'.queue = s.queue)
    (hp : s'.pending = s.pending) (hn : s'.numWorkers = s.numWorkers)
    (ho : s'.outside = s.outside) (hw : ∀ i, (s'.worker i).owed = (s.worker i).owed)
    (hoff : ∀ i, ¬ Active s' i → s'.worker i = .off) : Inv s' where
  off := hoff
  count := by
    rw [hp, h.count]
    simp only [accepted, hq, hn, ho, hw]

theorem runStep_inv {s s' : State ι α} (h : Inv s) (hs : runStep s s.runner = some s') :
    Inv s' := by
  have hoff := h.off
  cases hpc : s.runner with
  | spawn k =>
    simp only [Active, hpc] at hoff
    simp only [runStep, hpc] at hs
    split_ifs at hs with hk <;> cases hs
    · have hk0 : s.worker k = .off := hoff k (by simp)
      refine h.of_runner rfl rfl rfl rfl (fun i => ?_) fun i hi => ?_
      · rcases eq_or_ne i k with rfl | hne
        · simp [hk0, WorkerPc.owed]
        · simp [hne]
      · simp only [Active, setWorker_numWorkers, setWorker_worker] at hi ⊢
        have hne : i ≠ k := by
          rintro rfl
          exact hi ⟨hk, Nat.lt_succ_self i⟩
        rw [Function.update_of_ne hne]
        exact hoff i fun hact => hi ⟨hact.1, hact.2.trans (Nat.lt_succ_self k)⟩
    · refine ⟨fun i hi => hoff i fun hact => hi ⟨hact.1, trivial⟩, h.count⟩
  | notifyAll =>
    simp only [Active, hpc] at hoff
    simp only [runStep, hpc, Option.some.injEq] at hs
    subst hs
    refine h.of_runner rfl rfl rfl rfl (fun i => (s.worker i).owed_wake) fun i hi => ?_
    change (s.worker i).wake = .off
    rw [hoff i fun hact => hi ⟨hact.1, Nat.zero_le i⟩]
    rfl
  | join k =>
    simp only [Active, hpc] at hoff
    simp only [runStep, hpc] at hs
    split_ifs at hs with hk hex <;> cases hs
    · refine h.of_runner rfl rfl rfl rfl (fun i => ?_) fun i hi => ?_
      · rcases eq_or_ne i k with rfl | hne
        · cases hw : s.worker i <;> simp_all [WorkerPc.isExited, WorkerPc.owed]
        · simp [hne]
      · rcases eq_or_ne i k with rfl | hne
        · simp
        · simp only [Active, setWorker_numWorkers, setWorker_worker] at hi ⊢
          rw [Function.update_of_ne hne]
          exact hoff i fun hact => hi ⟨hact.1, Nat.lt_of_le_of_ne hact.2 hne.symm⟩
    · refine ⟨fun i hi => hoff i fun hact => ?_, h.count⟩
      exact absurd (hact.2.trans_lt hact.1) hk
  | idle => simp [runStep, hpc] at hs
  | blocked => simp [runStep, hpc] at hs
  | lockReset =>
    simp only [runStep, hpc] at hs
    split_ifs at hs
    cases hs
    exact ⟨fun i _ => hoff i (by simp [Active, hpc]), h.count⟩
  | reset =>
    simp only [runStep, hpc, Option.some.injEq] at hs
    subst hs
    exact ⟨fun i _ => hoff i (by simp [Active, hpc]), h.count⟩
  | lockWait =>
    simp only [runStep, hpc] at hs
    split_ifs at hs
    cases hs
    exact ⟨fun i hi => hoff i (by simpa [Active, hpc] using hi), h.count⟩
  | check =>
    simp only [runStep, hpc, Option.some.injEq] at hs
    subst hs
    refine ⟨fun i hi => hoff i ?_, h.count⟩
    split_ifs at hi <;> simpa [Active, hpc] using hi
  | block =>
    simp only [runStep, hpc, Option.some.injEq] at hs
    subst hs
    exact ⟨fun i hi => hoff i (by simpa [Active, hpc] using hi), h.count⟩
  | woken =>
    simp only [runStep, hpc] at hs
    split_ifs at hs
    cases hs
    exact ⟨fun i hi => hoff i (by simpa [Active, hpc] using hi), h.count⟩
  | setShutdown =>
    simp only [runStep, hpc, Option.some.injEq] at hs
    subst hs
    exact ⟨fun i hi => hoff i (by simpa [Active, hpc] using hi), h.count⟩

variable [DecidableEq ι]

theorem inv_step (s : State ι α) (a : Action ι α) (s' : State ι α) (h : Inv s)
    (hs : step s a = some s') : Inv s' := by
  cases a with
  | submit o task =>
    cases ho : s.outside o <;> simp only [step, ho, reduceCtorEq, Option.some.injEq] at hs
    subst hs
    refine ⟨h.off, h.count.trans ?_⟩
    have hsum : ∑ p, callOwed (Function.update s.outside o (some (.lock task)) p) =
        ∑ p, callOwed (s.outside p) :=
      Counting.sum_update_same (w := callOwed) _ (by rw [ho]; rfl)
    simp only [accepted, hsum]
  | outside o wake =>
    cases ho : s.outside o with
    | none => simp [step, ho] at hs
    | some call =>
      simp only [step, ho, Option.map_eq_some_iff, Prod.exists] at hs
      obtain ⟨v, rest, hv, rfl⟩ := hs
      obtain ⟨hc, hn, hr, hout, hw⟩ := submitStep_spec hv
      refine ⟨fun i hi => ?_, ?_⟩
      · have hi' : s.worker i = .off := h.off i (by simpa only [Active, hn, hr] using hi)
        change v.worker i = .off
        rw [hw i (by rw [hi']; rfl), hi']
      · have hsum := Counting.sum_update (Finset.mem_univ o) v.outside rest callOwed
        have hcount := h.count
        rw [hout, ho] at hsum
        simp only [accepted, callOwed, hout, Option.elim_some] at hsum hc hcount ⊢
        omega
  | spawn i task =>
    cases hpc : s.worker i <;> simp only [step, hpc, reduceCtorEq] at hs
    rename_i x call
    cases call <;> simp only [reduceCtorEq, Option.some.injEq] at hs
    subst hs
    exact h.of_worker (by simp [hpc]) rfl (fun _ hk => hk) (fun _ hj => hj) rfl
      (by simp [hpc, WorkerPc.owed, callOwed, SubmitPc.owed])
  | finish i =>
    cases hpc : s.worker i <;> simp only [step, hpc, reduceCtorEq] at hs
    rename_i x call
    cases call <;> simp only [reduceCtorEq, Option.some.injEq] at hs
    subst hs
    exact h.of_worker (by simp [hpc]) rfl (fun _ hk => hk) (fun _ hj => hj) rfl
      (by simp [hpc, WorkerPc.owed, callOwed])
  | worker i wake => exact workerStep_inv h hs
  | run n =>
    cases hpc : s.runner <;> simp only [step, hpc, reduceCtorEq, Option.some.injEq] at hs
    subst hs
    have hall : ∀ i, s.worker i = .off := fun i => h.off i (by simp [Active, hpc])
    refine ⟨fun i _ => hall i, h.count.trans ?_⟩
    simp [accepted, hall, WorkerPc.owed]
  | runner => exact runStep_inv h hs
  | spuriousWorker i =>
    simp only [step] at hs
    split_ifs at hs with hb
    cases hs
    refine h.of_worker ?_ rfl (fun _ hk => hk) (fun _ hj => hj) rfl ?_
    · intro he
      simp [he, WorkerPc.isBlocked] at hb
    · rw [WorkerPc.owed_of_isBlocked hb]
      rfl
  | spuriousRunner =>
    cases hpc : s.runner <;> simp only [step, hpc, reduceCtorEq, Option.some.injEq] at hs
    subst hs
    exact ⟨fun i hi => h.off i (by simpa [Active, hpc] using hi), h.count⟩

theorem inv_of_reachable {s : State ι α} (h : Reachable (machine ι α) s) : Inv s :=
  Reachable.invariant inv_init inv_step h

end TaskScheduler.MutexQueue
