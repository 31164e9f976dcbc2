import TaskScheduler.StealingInvariant

/-!
# Termination detection of WorkStealingScheduler

`pending_` of an instance counts exactly the tasks that were submitted to it and have
not run to completion, as long as no worker of another instance submits to it.
-/
namespace TaskScheduler.WorkStealing
open Transition

variable {κ ι α : Type*}

/-- A worker of another instance calls `submit` on instance `k`. -/
def Guest (k : κ) : Action κ ι α → Prop
  | .submit (.worker k' _) k'' _ => k'' = k ∧ k' ≠ k
  | _ => False

/-- A scheduler that is the only one has no guests. -/
theorem not_guest [Subsingleton κ] (k : κ) (a : Action κ ι α) : ¬ Guest k a := by
  rcases a with ⟨t, k', task⟩ | _ | _ | _ | _ | _
  · cases t with
    | worker k'' i => exact fun hg => hg.2 (Subsingleton.elim _ _)
    | outside o => exact id
  all_goals exact id

/-- No worker of another instance is in a `submit` on instance `k`. -/
def NoGuest (k : κ) (s : State κ ι α) : Prop :=
  ∀ k' i pc, s.call (.worker k' i) = some (k, pc) → k' = k

/-- `run` has left its wait loop and has not yet destroyed the contexts. -/
def RunPc.settled : RunPc → Bool
  | .setShutdown | .join _ | .clearEnd => true
  | _ => false

/-- The tasks of an instance that are not in the hands of a thread. -/
def Instance.stored (m : Instance α) : Multiset α := m.injectQueue + m.stock

theorem stock_of_none {m : Instance α} (h : ∀ i, m.deque i = none) : m.stock = 0 :=
  Finset.sum_eq_zero fun i _ => by rw [h i]; rfl

/-- Destroying the contexts loses no task when there is none in them. -/
theorem stored_clear {m m' : Instance α} (h : m.stock = 0)
    (hq : m'.injectQueue = m.injectQueue) (hd : ∀ i, m'.deque i = none) :
    m'.stored = m.stored := by
  simp only [Instance.stored, hq, h, stock_of_none hd]

/-- `run` moves tasks from the injection queue to a deque and destroys no deque that has
tasks. -/
theorem runStep_spec {m m' : Instance α} (hm : InstanceOk m)
    (hend : m.run = .clearEnd → m.stock = 0) (h : runStep m m.run = some m') :
    m'.numWorkers = m.numWorkers ∧ m'.pending = m.pending ∧ m'.stored = m.stored ∧
      (m'.run.settled → m'.stock = m.stock ∧ (m.run.settled ∨ m.pending ≤ 0)) := by
  cases hr : m.run with
  | clear =>
    simp only [runStep, hr, Option.some.injEq] at h
    subst h
    have h0 : m.stock = 0 := stock_of_none fun i => hm.unbuilt i (by simp [Built, hr])
    exact ⟨rfl, rfl, stored_clear h0 rfl fun _ => rfl, fun hs => by cases hs⟩
  | resize =>
    simp only [runStep, hr, Option.some.injEq] at h
    subst h
    exact ⟨rfl, rfl, rfl, fun hs => by cases hs⟩
  | build j =>
    simp only [runStep, hr] at h
    split_ifs at h with hj <;> cases h
    · refine ⟨rfl, rfl, ?_, fun hs => by cases hs⟩
      have hnone : m.deque j = none := hm.unbuilt j (by simp [Built, hr])
      have hstock := stock_setDeque hj ([] : List α)
      simp only [hnone, dequeTasks, Multiset.coe_nil, add_zero] at hstock
      exact congrArg ((m.injectQueue : Multiset α) + ·) hstock
    · exact ⟨rfl, rfl, rfl, fun hs => by cases hs⟩
  | reset =>
    simp only [runStep, hr, Option.some.injEq] at h
    subst h
    exact ⟨rfl, rfl, rfl, fun hs => by cases hs⟩
  | lockDrain =>
    simp only [runStep, hr] at h
    split_ifs at h
    cases h
    exact ⟨rfl, rfl, rfl, fun hs => by cases hs⟩
  | drain =>
    simp only [runStep, hr] at h
    cases hq : m.injectQueue with
    | nil =>
      simp only [hq, Option.some.injEq] at h
      subst h
      exact ⟨rfl, rfl, by simp [Instance.stored, Instance.stock, hq], fun hs => by cases hs⟩
    | cons task rest =>
      simp only [hq, Option.map_eq_some_iff] at h
      obtain ⟨l, hl, rfl⟩ := h
      have hns : m.run.settled = false := by rw [hr]; rfl
      refine ⟨rfl, rfl, ?_, fun hs => absurd (show m.run.settled = true from hs) (by simp [hns])⟩
      have hstock := stock_setDeque (hm.lt (i := 0) (by simp [hl])) (l ++ [task])
      have hcast : ((l ++ [task] : List α) : Multiset α) = {task} + dequeTasks (some l) := by
        rw [add_comm]
        rfl
      rw [hl, hcast, ← add_assoc] at hstock
      have hstock' : (m.setDeque 0 (l ++ [task])).stock = m.stock + {task} :=
        add_right_cancel hstock
      change (rest : Multiset α) + (m.setDeque 0 (l ++ [task])).stock = m.injectQueue + m.stock
      rw [hstock', hq, ← Multiset.cons_coe, ← Multiset.singleton_add]
      abel
  | launch j =>
    simp only [runStep, hr] at h
    split_ifs at h
    cases h
    exact ⟨rfl, rfl, rfl, fun hs => by cases hs⟩
  | wait =>
    simp only [runStep, hr] at h
    split_ifs at h with hp <;> cases h
    · exact ⟨rfl, rfl, rfl, fun hs => by rw [hr] at hs; cases hs⟩
    · exact ⟨rfl, rfl, rfl, fun _ => ⟨rfl, .inr (not_lt.mp hp)⟩⟩
  | setShutdown =>
    simp only [runStep, hr, Option.some.injEq] at h
    subst h
    exact ⟨rfl, rfl, rfl, fun _ => ⟨rfl, .inl rfl⟩⟩
  | join j =>
    simp only [runStep, hr] at h
    split_ifs at h
    cases h
    exact ⟨rfl, rfl, rfl, fun _ => ⟨rfl, .inl rfl⟩⟩
  | clearEnd =>
    simp only [runStep, hr, Option.some.injEq] at h
    subst h
    exact ⟨rfl, rfl, stored_clear (hend hr) rfl fun _ => rfl, fun hs => by cases hs⟩
  | idle => simp [runStep, hr] at h

section Step
variable {k : κ}

theorem inHand_of_off {n : ℕ} {w : κ × ℕ → WorkerPc α} (h : ∀ i, w (k, i) = .off) :
    inHand k n w = 0 := by
  refine Finset.sum_eq_zero fun p hp => ?_
  obtain ⟨k', i⟩ := p
  rw [(mem_crew.mp hp).1, h i]
  rfl

/-- An instance whose stock is empty has no worker in the middle of a task. -/
theorem not_running_of_stock {s : State κ ι α} (h : stock k s = 0) {i : ℕ}
    (hi : i < (s.inst k).numWorkers) : (s.worker (k, i)).isRunning = false := by
  have hhand : inHand k (s.inst k).numWorkers s.worker = 0 := (add_eq_zero.mp h).2
  have h0 := Finset.sum_eq_zero_iff.mp hhand (k, i) (mem_crew.mpr ⟨rfl, hi⟩)
  cases hpc : s.worker (k, i) <;> simp_all [WorkerPc.tasks, WorkerPc.isRunning]

/-- No thread is on the worker path of `submit` while the stock is empty. -/
theorem not_local_of_stock {s : State κ ι α} (h : Inv s) (hg : NoGuest k s)
    (hz : stock k s = 0) {t : Thread κ ι} {pc : SubmitPc α} (ht : s.call t = some (k, pc)) :
    ¬ 0 ≤ s.tlWorkerId t := by
  cases t with
  | outside o => simp [h.outside_id o]
  | worker k' i =>
    obtain rfl := hg k' i pc ht
    have hrun := isRunning_of_call h (t := .worker k' i) (by simp [ht]) k' i rfl
    have hlt : i < (s.inst k').numWorkers := by
      refine (h.active ?_).1
      intro he
      rw [he] at hrun
      cases hrun
    rw [not_running_of_stock hz hlt] at hrun
    cases hrun

variable [DecidableEq κ]

theorem submitted_call {s : State κ ι α} {t : Thread κ ι} {pc : SubmitPc α}
    (ht : s.call t = some (k, pc)) :
    ((submitted k s (.call t)).toList : Multiset α) = pc.counted := by
  simp only [submitted, ht]
  cases pc <;> simp [SubmitPc.counted]

variable [DecidableEq ι] [Fintype ι]

/-- The calls into an instance that has no workers are those of the threads outside. -/
theorem inFlight_of_outside {n : ℕ} {c : Thread κ ι → Option (κ × SubmitPc α)}
    (h : ∀ i, c (.worker k i) = none) :
    inFlight k n c = ∑ t ∈ Finset.univ.image Thread.outside, callTasks k (c t) := by
  refine (Finset.sum_subset Finset.subset_union_right fun t ht hout => ?_).symm
  rcases Finset.mem_union.mp ht with hw | ho
  · obtain ⟨i, _, rfl⟩ := Finset.mem_image.mp hw
    rw [h i]
    rfl
  · exact absurd ho hout

/-- A thread in a `submit` on `k` is one of its clients. -/
theorem mem_clients {s : State κ ι α} (h : Inv s) (hg : NoGuest k s) {t : Thread κ ι}
    {pc : SubmitPc α} (ht : s.call t = some (k, pc)) :
    t ∈ clients k (s.inst k).numWorkers := by
  cases t with
  | outside o => exact outside_mem_clients o
  | worker k' i =>
    obtain rfl := hg k' i pc ht
    have hrun := isRunning_of_call h (t := .worker k' i) (by simp [ht]) k' i rfl
    refine worker_mem_clients (h.active ?_).1
    intro he
    rw [he] at hrun
    cases hrun

/-- What a step does to the tasks of instance `k`, and to its counter. -/
structure Moves (k : κ) (s s' : State κ ι α) (a : Action κ ι α) : Prop where
  tasks : load k s' + ((completed k s a).toList : Multiset α) =
    load k s + ((submitted k s a).toList : Multiset α)
  pending : (s'.inst k).pending + (completed k s a).toList.length =
    (s.inst k).pending + (submitted k s a).toList.length
  settled : ((s.inst k).run.settled → stock k s = 0) →
    (s.inst k).pending = (load k s).card → (s'.inst k).run.settled → stock k s' = 0

/-- A step that does not concern instance `k`. -/
theorem Moves.of_eq {s s' : State κ ι α} {a : Action κ ι α} (hi : s'.inst k = s.inst k)
    (hh : ∀ n, inHand k n s'.worker = inHand k n s.worker)
    (hf : ∀ n, inFlight k n s'.call = inFlight k n s.call)
    (hc : completed k s a = none) (hs : submitted k s a = none) : Moves k s s' a where
  tasks := by simp only [load, stock, hi, hh, hf, hc, hs]
  pending := by rw [hi, hc, hs]
  settled hset _ hrun := by
    rw [hi] at hrun
    simpa only [stock, hi, hh] using hset hrun

theorem submit_moves {s s' : State κ ι α} {t : Thread κ ι} {k' : κ} {task : α}
    (hs : step s (.submit t k' task) = some s') : Moves k s s' (.submit t k' task) := by
  simp only [step] at hs
  split_ifs at hs with hcan
  cases hs
  refine .of_eq rfl (fun _ => rfl) (fun n => inFlight_update_same ?_) rfl rfl
  have hnone : s.call t = none := by
    cases t <;> simp_all [canSubmit]
  simp [hnone, callTasks, SubmitPc.tasks]

theorem call_moves {s s' : State κ ι α} {t : Thread κ ι} (h : Inv s) (hg : NoGuest k s)
    (hs : step s (.call t) = some s') : Moves k s s' (.call t) := by
  cases hc : s.call t with
  | none => simp [step, hc] at hs
  | some c =>
    obtain ⟨k', pc⟩ := c
    simp only [step, hc, Option.map_eq_some_iff, Prod.exists] at hs
    obtain ⟨m', rest, hm', rfl⟩ := hs
    rcases eq_or_ne k' k with rfl | hne
    · have ht := mem_clients h hg hc
      obtain ⟨hf, hstored, hpend, hstock, _⟩ := submitStep_spec (h.inst k') hm'
      have hcard : (submitted k' s (.call t)).toList.length = pc.counted.card := by
        rw [← submitted_call hc, Multiset.coe_card]
      have hflight := inFlight_update ht s.call (rest.map fun pc' => (k', pc'))
      have hrest : callTasks k' (rest.map fun pc' => (k', pc')) = restTasks rest := by
        cases rest <;> simp [callTasks, restTasks]
      have hold : callTasks k' (s.call t) = pc.tasks := by simp [hc, callTasks]
      rw [hrest, hold] at hflight
      refine ⟨?_, ?_, ?_⟩
      · rw [submitted_call hc]
        have hsum := Counting.exchange hstored hflight
        simp only [load, stock, completed, setCall_inst, setInst_inst, Function.update_self,
          setCall_worker, setInst_worker, setCall_call, setInst_call, hf.numWorkers,
          Option.toList_none, Multiset.coe_nil, add_zero]
        rw [← add_assoc, add_right_comm, hsum]
        abel
      · simp [completed, hpend, hcard]
      · intro hset _ hrun
        simp only [setCall_inst, setInst_inst, Function.update_self, hf.run] at hrun
        have hzero := hset hrun
        have hwid : pc.wid? = none := by
          by_contra hsome
          obtain ⟨wid, hwid⟩ := Option.ne_none_iff_exists'.mp hsome
          obtain ⟨rfl, hnonneg⟩ := h.route t k' pc wid hc hwid
          exact not_local_of_stock h hg hzero hc hnonneg
        simp only [stock, setCall_inst, setInst_inst, Function.update_self, setCall_worker,
          setInst_worker, hf.numWorkers, hstock hwid]
        exact hzero
    · refine .of_eq ?_ (fun _ => rfl) (fun n => inFlight_update_same ?_) rfl ?_
      · simp [hne.symm]
      · cases rest <;> simp [hc, callTasks, hne]
      · simp only [submitted, hc]
        cases pc <;> simp [hne]

theorem worker_moves {s s' : State κ ι α} {k' : κ} {i rng : ℕ} (h : Inv s)
    (hs : step s (.worker k' i rng) = some s') : Moves k s s' (.worker k' i rng) := by
  obtain ⟨m', pc', hm', hinst, hworker, hcall⟩ := step_worker hs
  obtain ⟨hf, hq, hp, hstock, _⟩ := workerStep_spec (h.inst k') hm'
  rcases eq_or_ne k' k with rfl | hne
  · have hlt : i < (s.inst k').numWorkers := by
      refine (h.active ?_).1
      intro he
      simp [he, workerStep] at hm'
    have hhand := inHand_update (k := k') hlt s.worker pc'
    have hsum : m'.stock + inHand k' m'.numWorkers (Function.update s.worker (k', i) pc') =
        stock k' s := by
      have hx := Counting.exchange (c := 0) (by rwa [add_zero]) hhand
      rw [hf.numWorkers]
      rwa [add_zero] at hx
    have hload : load k' s' = load k' s := by
      simp only [load, stock, hinst, hworker, hcall, Function.update_self] at hsum ⊢
      rw [hsum, hq, hf.numWorkers]
    refine ⟨by rw [hload]; rfl, ?_, fun hset _ hrun => ?_⟩
    · simp [hinst, hp, completed, submitted]
    · simp only [hinst, Function.update_self, hf.run] at hrun
      simpa only [stock, hinst, hworker, Function.update_self, hsum] using hset hrun
  · refine .of_eq ?_ (fun n => ?_) (fun n => by rw [hcall]) rfl rfl
    · rw [hinst, Function.update_of_ne hne.symm]
    · rw [hworker, inHand_update_of_ne hne]

theorem finish_moves {s s' : State κ ι α} {k' : κ} {i : ℕ} (h : Inv s)
    (hs : step s (.finish k' i) = some s') : Moves k s s' (.finish k' i) := by
  cases hpc : s.worker (k', i) <;> simp only [step, hpc, reduceCtorEq] at hs
  rename_i task
  cases hc : s.call (.worker k' i) <;> simp only [hc, reduceCtorEq, Option.some.injEq] at hs
  subst hs
  rcases eq_or_ne k' k with rfl | hne
  · have hlt : i < (s.inst k').numWorkers := (h.active (by simp [hpc])).1
    have hdone : (completed k' s (.finish k' i)) = some task := by simp [completed, hpc]
    have hhand := inHand_update (k := k') hlt s.worker
      (if (s.inst k').pending = 1 then .exited else .pop)
    have hzero : (if (s.inst k').pending = 1 then WorkerPc.exited else .pop : WorkerPc α).tasks =
        0 := by
      split_ifs <;> rfl
    rw [hzero, add_zero, hpc] at hhand
    refine ⟨?_, by simp [hdone, submitted], fun hset _ hrun => ?_⟩
    · simp only [hdone, submitted, load, stock, Instance.stock, setWorker_inst, setInst_inst,
        Function.update_self, setWorker_worker, setInst_worker, setWorker_call, setInst_call,
        Option.toList_some, Option.toList_none, Multiset.coe_singleton, Multiset.coe_nil,
        add_zero]
      rw [← hhand]
      simp only [WorkerPc.tasks]
      abel
    · have hrun' : (s.inst k').run.settled := by simpa using hrun
      have hidle := not_running_of_stock (hset hrun') hlt
      rw [hpc] at hidle
      cases hidle
  · refine .of_eq ?_ (fun n => inHand_update_of_ne hne _ _) (fun _ => rfl) ?_ rfl
    · simp [hne.symm]
    · simp [completed, hne]

/-- `run` starts with no contexts and no workers, whatever their number was before. -/
theorem run_moves {s s' : State κ ι α} {k' : κ} {n : ℕ} (h : Inv s)
    (hs : step s (.run k' n) = some s') : Moves k s s' (.run k' n) := by
  cases hr : (s.inst k').run <;> simp only [step, hr, reduceCtorEq] at hs
  split_ifs at hs with hn
  cases hs
  rcases eq_or_ne k' k with rfl | hne
  · have hoff : ∀ i, s.worker (k', i) = .off := fun i => h.off k' i (by simp [Active, hr])
    have hcall : ∀ i, s.call (.worker k' i) = none := fun i =>
      h.quiet k' i (by rw [hoff i]; rfl)
    have hdeque : ∀ i, (s.inst k').deque i = none := fun i =>
      (h.inst k').unbuilt i (by simp [Built, hr])
    refine ⟨?_, by simp [completed, submitted], fun _ _ hrun => ?_⟩
    · simp only [load, stock, setInst_inst, Function.update_self, setInst_worker, setInst_call,
        inHand_of_off hoff, inFlight_of_outside hcall, stock_of_none hdeque, completed, submitted]
      rw [stock_of_none (m := { s.inst k' with numWorkers := n, run := .clear }) hdeque]
    · simp [RunPc.settled] at hrun
  · exact .of_eq (by simp [hne.symm]) (fun _ => rfl) (fun _ => rfl) rfl rfl

/-- An access of `run` to the members of its instance. -/
theorem runStep_moves {s : State κ ι α} {k' : κ} {m' : Instance α} (h : Inv s)
    (hset : (s.inst k).run.settled → stock k s = 0)
    (hm' : runStep (s.inst k') (s.inst k').run = some m') :
    Moves k s (s.setInst k' m') (.runner k') := by
  rcases eq_or_ne k' k with rfl | hne
  · have hend : (s.inst k').run = .clearEnd → (s.inst k').stock = 0 := fun he =>
      (add_eq_zero.mp (hset (by rw [he]; rfl))).1
    obtain ⟨hn, hp, hstored, hsettled⟩ := runStep_spec (h.inst k') hend hm'
    have hload : load k' (s.setInst k' m') = load k' s := by
      simp only [load, stock, setInst_inst, Function.update_self, setInst_worker, setInst_call,
        hn, ← add_assoc]
      simp only [Instance.stored] at hstored
      rw [hstored]
    refine ⟨by rw [hload]; rfl, by simp [hp, completed, submitted], fun _ hpend hrun => ?_⟩
    simp only [setInst_inst, Function.update_self] at hrun
    obtain ⟨hstock, hwas⟩ := hsettled hrun
    have hsame : stock k' (s.setInst k' m') = stock k' s := by
      simp only [stock, setInst_inst, Function.update_self, setInst_worker, hn, hstock]
    rw [hsame]
    rcases hwas with hwas | hle
    · exact hset hwas
    · have hzero : load k' s = 0 := Multiset.card_eq_zero.mp (by omega)
      exact (add_eq_zero.mp (add_eq_zero.mp hzero).1).2
  · exact .of_eq (by simp [hne.symm]) (fun _ => rfl) (fun _ => rfl) rfl rfl

theorem runner_moves {s s' : State κ ι α} {k' : κ} (h : Inv s)
    (hset : (s.inst k).run.settled → stock k s = 0) (hs : step s (.runner k') = some s') :
    Moves k s s' (.runner k') := by
  rcases step_runner hs with ⟨m', hm', rfl⟩ | ⟨i, hr, hi, rfl⟩ | ⟨i, hr, hi, hex, rfl⟩
  · exact runStep_moves h hset hm'
  · have hoff : s.worker (k', i) = .off := h.off k' i (by simp [Active, hr])
    have hhand : ∀ n, inHand k n (Function.update s.worker (k', i) .start) =
        inHand k n s.worker := fun n => inHand_update_same (by rw [hoff]; rfl)
    rcases eq_or_ne k' k with rfl | hne
    · refine ⟨?_, by simp [completed, submitted], fun _ _ hrun => ?_⟩
      · simp [load, stock, hhand, completed, submitted, Instance.stock]
      · simp [RunPc.settled] at hrun
    · exact .of_eq (by simp [hne.symm]) hhand (fun _ => rfl) rfl rfl
  · have hhand : ∀ n, inHand k n (Function.update s.worker (k', i) .off) =
        inHand k n s.worker := by
      refine fun n => inHand_update_same ?_
      cases hw : s.worker (k', i) <;> simp_all [WorkerPc.isExited, WorkerPc.tasks]
    rcases eq_or_ne k' k with rfl | hne
    · refine ⟨?_, by simp [completed, submitted], fun _ _ _ => ?_⟩
      · simp [load, stock, hhand, completed, submitted, Instance.stock]
      · have hzero := hset (by rw [hr]; rfl)
        simpa [stock, hhand, Instance.stock] using hzero
    · exact .of_eq (by simp [hne.symm]) hhand (fun _ => rfl) rfl rfl

theorem step_moves {s s' : State κ ι α} {a : Action κ ι α} (h : Inv s) (hg : NoGuest k s)
    (hset : (s.inst k).run.settled → stock k s = 0) (hs : step s a = some s') :
    Moves k s s' a := by
  cases a with
  | submit t k' task => exact submit_moves hs
  | call t => exact call_moves h hg hs
  | worker k' i rng => exact worker_moves h hs
  | finish k' i => exact finish_moves h hs
  | run k' n => exact run_moves h hs
  | runner k' => exact runner_moves h hset hs

omit [Fintype ι] in
/-- Only a call of `submit` brings a worker of another instance into one. -/
theorem noGuest_step {s s' : State κ ι α} {a : Action κ ι α} (hg : NoGuest k s)
    (ha : ¬ Guest k a) (hs : step s a = some s') : NoGuest k s' := by
  intro k' i pc hcall
  cases a with
  | submit t k'' task =>
    simp only [step] at hs
    split_ifs at hs
    cases hs
    rcases eq_or_ne (Thread.worker k' i) t with rfl | hne
    · by_contra hk
      simp only [setCall_call, Function.update_self, Option.some.injEq, Prod.mk.injEq] at hcall
      exact ha ⟨hcall.1, hk⟩
    · exact hg k' i pc (by simpa only [setCall_call, Function.update_of_ne hne] using hcall)
  | call t =>
    cases hc : s.call t with
    | none => simp [step, hc] at hs
    | some c =>
      simp only [step, hc, Option.map_eq_some_iff, Prod.exists] at hs
      obtain ⟨m', rest, hm', rfl⟩ := hs
      rcases eq_or_ne (Thread.worker k' i) t with rfl | hne
      · simp only [setCall_call, Function.update_self, Option.map_eq_some_iff,
          Prod.mk.injEq] at hcall
        obtain ⟨_, _, rfl, _⟩ := hcall
        exact hg k' i c.2 hc
      · refine hg k' i pc ?_
        simpa only [setCall_call, Function.update_of_ne hne, setInst_call] using hcall
  | _ => exact hg k' i pc (call_eq_of_step (by simp) (by simp) hs ▸ hcall)

/-- The tasks submitted to an instance so far against those completed, held and counted. -/
structure Ledger (k : κ) (tr : List (State κ ι α × Action κ ι α)) (s : State κ ι α) : Prop where
  inv : Inv s
  guest : NoGuest k s
  tasks : (log (submitted k) tr : Multiset α) = log (completed k) tr + load k s
  pending : (s.inst k).pending =
    (log (submitted k) tr).length - (log (completed k) tr).length
  settled : (s.inst k).run.settled → stock k s = 0

theorem Ledger.pending_eq_card {tr : List (State κ ι α × Action κ ι α)} {s : State κ ι α}
    (h : Ledger k tr s) : (s.inst k).pending = (load k s).card := by
  have hcard := congrArg Multiset.card h.tasks
  have hpend := h.pending
  simp only [Multiset.card_add, Multiset.coe_card] at hcard
  omega

theorem Ledger.init : Ledger k [] (machine κ ι α).init := by
  refine ⟨inv_init, fun _ _ _ hc => (by cases hc), ?_, rfl, fun hrun => by cases hrun⟩
  simp [load, stock, inHand, inFlight, Instance.stock, machine, initInstance, callTasks,
    WorkerPc.tasks]

theorem Ledger.step {tr : List (State κ ι α × Action κ ι α)} {u v : State κ ι α}
    {a : Action κ ι α} (hu : Ledger k tr u) (ha : ¬ Guest k a) (hs : step u a = some v) :
    Ledger k (tr ++ [(u, a)]) v := by
  have hm := step_moves hu.inv hu.guest hu.settled hs
  refine ⟨inv_step u a v hu.inv hs, noGuest_step hu.guest ha hs, ?_, ?_,
    hm.settled hu.settled hu.pending_eq_card⟩
  · rw [log_snoc, log_snoc, ← Multiset.coe_add, ← Multiset.coe_add, hu.tasks]
    have htasks := hm.tasks
    rw [add_assoc, ← htasks]
    abel
  · have hpend := hm.pending
    have hold := hu.pending
    simp only [log_snoc, List.length_append]
    push_cast
    omega

theorem ledger_of_run {tr : List (State κ ι α × Action κ ι α)} {s : State κ ι α}
    (h : Run (machine κ ι α) tr s) (hg : ∀ e ∈ tr, ¬ Guest k e.2) : Ledger k tr s :=
  Run.history_of (C := fun _ a => ¬ Guest k a) Ledger.init
    (fun _ _ _ _ hu ha hs => hu.step ha hs) h hg

omit [DecidableEq κ] [DecidableEq ι] [Fintype ι] in
theorem card_inHand (n : ℕ) (w : κ × ℕ → WorkerPc α) :
    (inHand k n w).card = ∑ i ∈ Finset.range n, (w (k, i)).tasks.card := by
  simp [inHand, crew, Multiset.card_sum]

/-- Termination detection is exact: `pending_` counts the tasks in `inject_queue_`, in the
deques, run by a worker, or between the increment and the push of a `submit`. Where it is
zero every task submitted so far has run to completion once, `run` leaves its wait loop
only there, and no deque destroyed by `workers_.clear()` has a task. -/
theorem termination_exact {tr : List (State κ ι α × Action κ ι α)} {s : State κ ι α}
    (h : Run (machine κ ι α) tr s) (hg : ∀ e ∈ tr, ¬ Guest k e.2) :
    (s.inst k).pending = ((s.inst k).injectQueue.length +
        ∑ i ∈ Finset.range (s.inst k).numWorkers, (dequeTasks ((s.inst k).deque i)).card +
        ∑ i ∈ Finset.range (s.inst k).numWorkers, (s.worker (k, i)).tasks.card +
        ∑ t ∈ clients k (s.inst k).numWorkers, (callTasks k (s.call t)).card : ℕ) ∧
      ((s.inst k).pending = 0 →
        (log (submitted k) tr : Multiset α) = log (completed k) tr) ∧
      (∀ s', (s.inst k).run = .wait → step s (.runner k) = some s' →
        (s'.inst k).run ≠ .wait → (s.inst k).pending = 0) ∧
      ((s.inst k).run = .clear ∨ (s.inst k).run = .clearEnd →
        ∀ i l, (s.inst k).deque i = some l → l = []) := by
  have hl := ledger_of_run h hg
  have hpend := hl.pending_eq_card
  refine ⟨?_, fun hzero => ?_, fun s' hw hs hne => ?_, ?_⟩
  · rw [hpend]
    simp only [load, stock, Multiset.card_add, Multiset.coe_card, Instance.stock,
      Multiset.card_sum, card_inHand, inFlight]
    push_cast
    ring
  · have hload : load k s = 0 := Multiset.card_eq_zero.mp (by omega)
    rw [hl.tasks, hload, add_zero]
  · simp only [step, hw, runStep] at hs
    split_ifs at hs with hp <;> cases hs
    · simp [hw] at hne
    · omega
  · rintro hrun i l hd
    have hlt : i < (s.inst k).numWorkers := (hl.inv.inst k).lt (by simp [hd])
    rcases hrun with hrun | hrun
    · rw [(hl.inv.inst k).unbuilt i (by simp [Built, hrun])] at hd
      cases hd
    · have hzero : (s.inst k).stock = 0 := (add_eq_zero.mp (hl.settled (by rw [hrun]; rfl))).1
      have hi := Finset.sum_eq_zero_iff.mp hzero i (Finset.mem_range.mpr hlt)
      simpa [hd, dequeTasks] using hi

end Step

/-- One task from outside, then a run of it by one worker. -/
def oneTaskSchedule : List (Action Unit (Fin 1) ℕ) :=
  List.flatten [[.submit (.outside 0) () 7], List.replicate 4 (.call (.outside 0)), [.run () 1],
    List.replicate 10 (.runner ()), List.replicate 2 (.worker () 0 0), [.finish () 0],
    List.replicate 5 (.runner ())]

theorem termination_exact_one_task :
    ∃ s, exec (machine Unit (Fin 1) ℕ) (machine Unit (Fin 1) ℕ).init oneTaskSchedule = some s ∧
      (s.inst ()).run = .idle ∧
      (log (submitted ()) (record (machine Unit (Fin 1) ℕ) (machine Unit (Fin 1) ℕ).init
          oneTaskSchedule) : Multiset ℕ) =
        log (completed ()) (record (machine Unit (Fin 1) ℕ) (machine Unit (Fin 1) ℕ).init
          oneTaskSchedule) := by
  have hen : (exec (machine Unit (Fin 1) ℕ) (machine Unit (Fin 1) ℕ).init oneTaskSchedule).any
      fun s => decide ((s.inst ()).run = .idle ∧ (s.inst ()).pending = 0) := by decide
  obtain ⟨s, hs, hend⟩ := (Option.any_eq_true _ _).mp hen
  obtain ⟨hidle, hzero⟩ := of_decide_eq_true hend
  exact ⟨s, hs, hidle,
    (termination_exact (exec_steps hs) fun e _ => not_guest () e.2).2.1 hzero⟩

end TaskScheduler.WorkStealing
