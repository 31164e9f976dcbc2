import TaskScheduler.Counting
import TaskScheduler.StealingModel

/-!
# Where the tasks of an instance are

The structural invariant of the instances, and the tasks of one instance: in its
injection queue, in its deques, in the hands of its workers, or in a `submit` between
the increment of `pending_` and the push.
-/
namespace TaskScheduler.WorkStealing
open Transition

variable {κ ι α : Type*}

section Tasks

def dequeTasks : Option (List α) → Multiset α
  | some l => l
  | none => 0

def WorkerPc.tasks : WorkerPc α → Multiset α
  | .running task => {task}
  | _ => 0

/-- Counted in `pending_` and not yet pushed. -/
def SubmitPc.tasks : SubmitPc α → Multiset α
  | .pushLocal _ task | .pushInject task => {task}
  | _ => 0

/-- Counted in `pending_` by the next access. -/
def SubmitPc.counted : SubmitPc α → Multiset α
  | .addLocal _ task | .addInject task => {task}
  | _ => 0

def restTasks (rest : Option (SubmitPc α)) : Multiset α := rest.elim 0 SubmitPc.tasks

def callTasks [DecidableEq κ] (k : κ) : Option (κ × SubmitPc α) → Multiset α
  | some (k', pc) => if k' = k then pc.tasks else 0
  | none => 0

/-- The tasks in the deques of an instance. -/
def Instance.stock (m : Instance α) : Multiset α :=
  ∑ i ∈ Finset.range m.numWorkers, dequeTasks (m.deque i)

def crew (k : κ) (n : ℕ) : Finset (κ × ℕ) := {k} ×ˢ Finset.range n

theorem mem_crew {k k' : κ} {n i : ℕ} : (k', i) ∈ crew k n ↔ k' = k ∧ i < n := by
  simp [crew, and_comm, eq_comm]

variable [DecidableEq κ] [DecidableEq ι]

/-- The threads that submit to an instance: its own workers and the threads outside. -/
def clients [Fintype ι] (k : κ) (n : ℕ) : Finset (Thread κ ι) :=
  (Finset.range n).image (.worker k) ∪ Finset.univ.image .outside

/-- The tasks that the workers of instance `k` run. -/
def inHand (k : κ) (n : ℕ) (w : κ × ℕ → WorkerPc α) : Multiset α :=
  ∑ p ∈ crew k n, (w p).tasks

def inFlight [Fintype ι] (k : κ) (n : ℕ) (c : Thread κ ι → Option (κ × SubmitPc α)) :
    Multiset α :=
  ∑ t ∈ clients k n, callTasks k (c t)

/-- The tasks that the workers of instance `k` hold or can reach. -/
def stock (k : κ) (s : State κ ι α) : Multiset α :=
  (s.inst k).stock + inHand k (s.inst k).numWorkers s.worker

/-- The tasks of instance `k` that are counted in `pending_`. -/
def load [Fintype ι] (k : κ) (s : State κ ι α) : Multiset α :=
  (s.inst k).injectQueue + stock k s + inFlight k (s.inst k).numWorkers s.call

variable {k : κ} {n : ℕ}

theorem outside_mem_clients [Fintype ι] (o : ι) : Thread.outside o ∈ clients k n := by
  simp [clients]

theorem worker_mem_clients [Fintype ι] {i : ℕ} (hi : i < n) :
    (Thread.worker k i : Thread κ ι) ∈ clients k n := by
  simp [clients, hi]

theorem inHand_update {i : ℕ} (hi : i < n) (w : κ × ℕ → WorkerPc α) (pc : WorkerPc α) :
    inHand k n (Function.update w (k, i) pc) + (w (k, i)).tasks = inHand k n w + pc.tasks :=
  Counting.sum_update (mem_crew.mpr ⟨rfl, hi⟩) w pc WorkerPc.tasks

theorem inHand_update_same {p : κ × ℕ} {w : κ × ℕ → WorkerPc α} {pc : WorkerPc α}
    (h : pc.tasks = (w p).tasks) : inHand k n (Function.update w p pc) = inHand k n w :=
  Counting.sum_update_same (w := WorkerPc.tasks) _ h

theorem inHand_update_of_ne {k' : κ} {i : ℕ} (h : k' ≠ k) (w : κ × ℕ → WorkerPc α)
    (pc : WorkerPc α) : inHand k n (Function.update w (k', i) pc) = inHand k n w :=
  Counting.sum_update_of_notMem (fun hmem => h (mem_crew.mp hmem).1) w pc WorkerPc.tasks

theorem inFlight_update [Fintype ι] {t : Thread κ ι} (ht : t ∈ clients k n)
    (c : Thread κ ι → Option (κ × SubmitPc α)) (call : Option (κ × SubmitPc α)) :
    inFlight k n (Function.update c t call) + callTasks k (c t) =
      inFlight k n c + callTasks k call :=
  Counting.sum_update ht c call (callTasks k)

theorem inFlight_update_same [Fintype ι] {t : Thread κ ι}
    {c : Thread κ ι → Option (κ × SubmitPc α)} {call : Option (κ × SubmitPc α)}
    (h : callTasks k call = callTasks k (c t)) :
    inFlight k n (Function.update c t call) = inFlight k n c :=
  Counting.sum_update_same (w := callTasks k) _ h

/-- Replacing one deque moves the stock by what that deque gained or lost. -/
theorem stock_setDeque {m : Instance α} {i : ℕ} (hi : i < m.numWorkers) (l : List α) :
    (m.setDeque i l).stock + dequeTasks (m.deque i) = m.stock + l :=
  Counting.sum_update (Finset.mem_range.mpr hi) m.deque (some l) dequeTasks

end Tasks

/-- The contexts that `run` has made and not yet destroyed. -/
def Built (m : Instance α) (i : ℕ) : Prop :=
  i < m.numWorkers ∧
    match m.run with
    | .idle | .clear | .resize => False
    | .build j => i < j
    | _ => True

/-- The workers between their launch and their join. -/
def Active (m : Instance α) (i : ℕ) : Prop :=
  i < m.numWorkers ∧
    match m.run with
    | .launch j => i < j
    | .wait | .setShutdown => True
    | .join j => j ≤ i
    | _ => False

/-- The contexts that exist are those that `run` has made. -/
structure InstanceOk (m : Instance α) : Prop where
  small : m.numWorkers < 2 ^ 32
  unbuilt : ∀ i, ¬ Built m i → m.deque i = none

/-- The worker has set its `tl_worker_id_`. -/
def WorkerPc.isStarted : WorkerPc α → Bool
  | .off | .start => false
  | _ => true

/-- The index that the worker path of `submit` pushes to. -/
def SubmitPc.wid? : SubmitPc α → Option ℤ
  | .addLocal wid _ | .pushLocal wid _ => some wid
  | _ => none

structure Inv (s : State κ ι α) : Prop where
  inst : ∀ k, InstanceOk (s.inst k)
  off : ∀ k i, ¬ Active (s.inst k) i → s.worker (k, i) = .off
  quiet : ∀ k i, (s.worker (k, i)).isRunning = false → s.call (.worker k i) = none
  outside_id : ∀ o, s.tlWorkerId (.outside o) = -1
  worker_id : ∀ k i, (s.worker (k, i)).isStarted → s.tlWorkerId (.worker k i) = asInt i
  route : ∀ t k pc wid, s.call t = some (k, pc) → pc.wid? = some wid →
    wid = s.tlWorkerId t ∧ 0 ≤ wid

theorem WorkerPc.isStarted_of_isRunning {pc : WorkerPc α} (h : pc.isRunning) : pc.isStarted := by
  cases pc <;> simp_all [WorkerPc.isRunning, WorkerPc.isStarted]

theorem InstanceOk.lt {m : Instance α} (h : InstanceOk m) {i : ℕ} (hi : m.deque i ≠ none) :
    i < m.numWorkers := by
  by_contra hge
  exact hi (h.unbuilt i fun hb => hge hb.1)

theorem Inv.active {s : State κ ι α} (h : Inv s) {k : κ} {i : ℕ} (hi : s.worker (k, i) ≠ .off) :
    Active (s.inst k) i := by
  by_contra hact
  exact hi (h.off k i hact)

/-- A worker that exists has its context. -/
theorem Active.built {m : Instance α} {i : ℕ} (h : Active m i) : Built m i := by
  obtain ⟨hlt, hr⟩ := h
  refine ⟨hlt, ?_⟩
  cases hrun : m.run <;> simp_all

/-- What an access of `submit` or of a worker leaves alone in its instance. -/
structure Frame (m m' : Instance α) : Prop where
  numWorkers : m'.numWorkers = m.numWorkers
  run : m'.run = m.run
  size : m'.size = m.size
  deque : ∀ i, m.deque i = none → m'.deque i = none

theorem Frame.refl (m : Instance α) : Frame m m := ⟨rfl, rfl, rfl, fun _ h => h⟩

theorem Frame.setDeque {m : Instance α} {i : ℕ} (h : m.deque i ≠ none) (l : List α) :
    Frame m (m.setDeque i l) where
  numWorkers := rfl
  run := rfl
  size := rfl
  deque j hj := by
    have hne : j ≠ i := by
      rintro rfl
      exact h hj
    simpa [Instance.setDeque, Function.update_of_ne hne] using hj

theorem Frame.built {m m' : Instance α} (h : Frame m m') {i : ℕ} : Built m' i ↔ Built m i := by
  simp only [Built, h.numWorkers, h.run]

theorem Frame.active {m m' : Instance α} (h : Frame m m') {i : ℕ} :
    Active m' i ↔ Active m i := by
  simp only [Active, h.numWorkers, h.run]

theorem InstanceOk.mono {m m' : Instance α} (hm : InstanceOk m)
    (hn : m'.numWorkers = m.numWorkers) (hb : ∀ i, Built m i → Built m' i)
    (hd : ∀ i, m.deque i = none → m'.deque i = none) : InstanceOk m' where
  small := hn ▸ hm.small
  unbuilt i hi := hd i (hm.unbuilt i fun hi' => hi (hb i hi'))

theorem Frame.ok {m m' : Instance α} (h : Frame m m') (hm : InstanceOk m) : InstanceOk m' :=
  hm.mono h.numWorkers (fun _ => h.built.mpr) h.deque

/-- A push to an existing deque is a push within the range of the stock. -/
theorem submitStep_spec {m m' : Instance α} {tl : ℤ} {pc : SubmitPc α}
    {rest : Option (SubmitPc α)} (hm : InstanceOk m)
    (h : submitStep m tl pc = some (m', rest)) :
    Frame m m' ∧ (m'.injectQueue + m'.stock + restTasks rest : Multiset α) =
        m.injectQueue + m.stock + pc.tasks + pc.counted ∧
      m'.pending = m.pending + pc.counted.card ∧
      (pc.wid? = none → m'.stock = m.stock) ∧
      (∀ wid, rest.bind SubmitPc.wid? = some wid →
        pc.wid? = some wid ∨ wid = tl ∧ 0 ≤ wid) := by
  cases pc with
  | check task =>
    simp only [submitStep] at h
    split_ifs at h with htl <;> cases h
    · exact ⟨.refl m, by simp [restTasks, SubmitPc.tasks, SubmitPc.counted], by simp [SubmitPc.counted],
        fun _ => rfl, by simp [SubmitPc.wid?, htl]⟩
    · exact ⟨.refl m, by simp [restTasks, SubmitPc.tasks, SubmitPc.counted], by simp [SubmitPc.counted],
        fun _ => rfl, by simp [SubmitPc.wid?]⟩
  | addLocal wid task =>
    cases h
    exact ⟨⟨rfl, rfl, rfl, fun _ h => h⟩,
      by simp [restTasks, SubmitPc.tasks, SubmitPc.counted, Instance.stock],
      by simp [SubmitPc.counted], fun _ => rfl, by simp [SubmitPc.wid?]⟩
  | pushLocal wid task =>
    simp only [submitStep, Option.map_eq_some_iff, Prod.mk.injEq] at h
    obtain ⟨l, hl, rfl, rfl⟩ := h
    have hne : m.deque wid.toNat ≠ none := by simp [hl]
    have hstock := stock_setDeque (hm.lt hne) (l ++ [task])
    rw [hl] at hstock
    have hstock' : (m.setDeque wid.toNat (l ++ [task])).stock = m.stock + {task} := by
      have hcast : ((l ++ [task] : List α) : Multiset α) = dequeTasks (some l) + {task} := rfl
      rw [hcast, ← add_assoc, add_right_comm] at hstock
      exact add_right_cancel hstock
    refine ⟨.setDeque hne _, ?_, by simp [SubmitPc.counted, Instance.setDeque], ?_, by simp⟩
    · rw [hstock']
      simp [restTasks, SubmitPc.tasks, SubmitPc.counted, Instance.setDeque, add_assoc]
    · simp [SubmitPc.wid?]
  | lock task =>
    simp only [submitStep] at h
    split_ifs at h
    cases h
    exact ⟨⟨rfl, rfl, rfl, fun _ h => h⟩,
      by simp [restTasks, SubmitPc.tasks, SubmitPc.counted, Instance.stock],
      by simp [SubmitPc.counted], fun _ => rfl, by simp [SubmitPc.wid?]⟩
  | addInject task =>
    cases h
    exact ⟨⟨rfl, rfl, rfl, fun _ h => h⟩,
      by simp [restTasks, SubmitPc.tasks, SubmitPc.counted, Instance.stock],
      by simp [SubmitPc.counted], fun _ => rfl, by simp [SubmitPc.wid?]⟩
  | pushInject task =>
    cases h
    refine ⟨⟨rfl, rfl, rfl, fun _ h => h⟩, ?_, by simp [SubmitPc.counted], fun _ => rfl, by simp⟩
    simp only [restTasks, SubmitPc.tasks, SubmitPc.counted, Instance.stock, Option.elim_none,
      ← Multiset.coe_add, Multiset.coe_singleton, add_zero]
    abel

/-- A worker takes a task out of a deque or leaves the deques alone. -/
theorem workerStep_spec {m m' : Instance α} {id rng : ℕ} {pc pc' : WorkerPc α}
    (hm : InstanceOk m) (h : workerStep m id rng pc = some (m', pc')) :
    Frame m m' ∧ m'.injectQueue = m.injectQueue ∧ m'.pending = m.pending ∧
      m'.stock + pc'.tasks = m.stock + pc.tasks ∧ pc.isRunning = false ∧ pc'.isStarted := by
  cases pc with
  | start =>
    cases h
    exact ⟨.refl m, rfl, rfl, rfl, rfl, rfl⟩
  | pop =>
    simp only [workerStep, Option.map_eq_some_iff] at h
    obtain ⟨l, hl, h⟩ := h
    have hne : m.deque id ≠ none := by simp [hl]
    cases hlast : l.getLast? with
    | none =>
      simp only [hlast, Prod.mk.injEq] at h
      obtain ⟨rfl, rfl⟩ := h
      exact ⟨.refl _, rfl, rfl, rfl, rfl, rfl⟩
    | some task =>
      simp only [hlast, Prod.mk.injEq] at h
      obtain ⟨rfl, rfl⟩ := h
      refine ⟨.setDeque hne _, rfl, rfl, ?_, rfl, rfl⟩
      obtain ⟨ys, rfl⟩ := List.getLast?_eq_some_iff.mp hlast
      have hstock := stock_setDeque (hm.lt hne) ys
      have hcast : dequeTasks (m.deque id) = (ys : Multiset α) + {task} := by
        rw [hl]
        rfl
      rw [hcast, ← add_assoc, add_right_comm] at hstock
      simpa [WorkerPc.tasks] using add_right_cancel hstock
  | checkPending =>
    simp only [workerStep, Option.some.injEq, Prod.mk.injEq] at h
    obtain ⟨rfl, rfl⟩ := h
    refine ⟨.refl _, rfl, rfl, ?_, rfl, ?_⟩ <;> split_ifs <;> rfl
  | checkShutdown =>
    simp only [workerStep, Option.some.injEq, Prod.mk.injEq] at h
    obtain ⟨rfl, rfl⟩ := h
    refine ⟨.refl _, rfl, rfl, ?_, rfl, ?_⟩ <;> split_ifs <;> rfl
  | pick =>
    simp only [workerStep, Option.some.injEq, Prod.mk.injEq] at h
    obtain ⟨rfl, rfl⟩ := h
    refine ⟨.refl _, rfl, rfl, ?_, rfl, ?_⟩ <;> split_ifs <;> rfl
  | steal start attempt =>
    simp only [workerStep] at h
    split_ifs at h
    · simp only [Option.map_eq_some_iff] at h
      obtain ⟨l, hl, h⟩ := h
      have hne : m.deque (victim (u32 m.size) id start attempt) ≠ none := by simp [hl]
      cases l with
      | nil =>
        simp only [Prod.mk.injEq] at h
        obtain ⟨rfl, rfl⟩ := h
        exact ⟨.refl _, rfl, rfl, rfl, rfl, rfl⟩
      | cons task rest =>
        simp only [Prod.mk.injEq] at h
        obtain ⟨rfl, rfl⟩ := h
        refine ⟨.setDeque hne _, rfl, rfl, ?_, rfl, rfl⟩
        have hstock := stock_setDeque (hm.lt hne) rest
        have hcast : dequeTasks (m.deque (victim (u32 m.size) id start attempt)) =
            (rest : Multiset α) + {task} := by
          rw [hl, add_comm]
          rfl
        rw [hcast, ← add_assoc, add_right_comm] at hstock
        simpa [WorkerPc.tasks] using add_right_cancel hstock
    · cases h
      exact ⟨.refl _, rfl, rfl, rfl, rfl, rfl⟩
  | off => simp [workerStep] at h
  | running task => simp [workerStep] at h
  | exited => simp [workerStep] at h

theorem runStep_ok {m m' : Instance α} (hm : InstanceOk m) (h : runStep m m.run = some m') :
    InstanceOk m' ∧ ∀ i, Active m i → Active m' i := by
  have hn := hm.small
  have hb := hm.unbuilt
  cases hr : m.run with
  | clear =>
    simp only [runStep, hr, Option.some.injEq] at h
    subst h
    exact ⟨⟨hn, fun _ _ => rfl⟩, fun i hi => by simp [Active, hr] at hi⟩
  | resize =>
    simp only [runStep, hr, Option.some.injEq] at h
    subst h
    exact ⟨⟨hn, fun i _ => hb i (by simp [Built, hr])⟩, fun i hi => by simp [Active, hr] at hi⟩
  | build j =>
    simp only [runStep, hr] at h
    split_ifs at h with hj <;> cases h
    · refine ⟨⟨hn, fun i hi => ?_⟩, fun i hi => by simp [Active, hr] at hi⟩
      have hne : i ≠ j := by
        rintro rfl
        exact hi ⟨hj, Nat.lt_succ_self i⟩
      simp only [Instance.setDeque, Function.update_of_ne hne]
      refine hb i fun hbuilt => hi ⟨hbuilt.1, ?_⟩
      have hlt : i < j := by simpa [Built, hr] using hbuilt.2
      exact hlt.trans (Nat.lt_succ_self j)
    · exact ⟨⟨hn, fun i hi => hb i fun hbuilt => hi ⟨hbuilt.1, trivial⟩⟩,
        fun i hi => by simp [Active, hr] at hi⟩
  | reset =>
    simp only [runStep, hr, Option.some.injEq] at h
    subst h
    exact ⟨⟨hn, fun i hi => hb i fun hbuilt => hi ⟨hbuilt.1, trivial⟩⟩,
      fun i hi => by simp [Active, hr] at hi⟩
  | lockDrain =>
    simp only [runStep, hr] at h
    split_ifs at h
    cases h
    exact ⟨⟨hn, fun i hi => hb i fun hbuilt => hi ⟨hbuilt.1, trivial⟩⟩,
      fun i hi => by simp [Active, hr] at hi⟩
  | drain =>
    simp only [runStep, hr] at h
    cases hq : m.injectQueue with
    | nil =>
      simp only [hq, Option.some.injEq] at h
      subst h
      exact ⟨⟨hn, fun i hi => hb i fun hbuilt => hi ⟨hbuilt.1, trivial⟩⟩,
        fun i hi => by simp [Active, hr] at hi⟩
    | cons task rest =>
      simp only [hq, Option.map_eq_some_iff] at h
      obtain ⟨l, hl, rfl⟩ := h
      have hf : Frame m (m.setDeque 0 (l ++ [task])) := .setDeque (by simp [hl]) _
      exact ⟨(hf.ok hm).mono rfl (fun _ hbuilt => hbuilt) fun _ hd => hd, fun _ hi => hi⟩
  | launch j =>
    simp only [runStep, hr] at h
    split_ifs at h
    cases h
    exact ⟨⟨hn, fun i hi => hb i fun hbuilt => hi ⟨hbuilt.1, trivial⟩⟩,
      fun i hi => ⟨hi.1, trivial⟩⟩
  | wait =>
    simp only [runStep, hr] at h
    split_ifs at h <;> cases h
    · exact ⟨hm, fun _ hi => hi⟩
    · exact ⟨⟨hn, fun i hi => hb i fun hbuilt => hi ⟨hbuilt.1, trivial⟩⟩,
        fun i hi => ⟨hi.1, trivial⟩⟩
  | setShutdown =>
    simp only [runStep, hr, Option.some.injEq] at h
    subst h
    exact ⟨⟨hn, fun i hi => hb i fun hbuilt => hi ⟨hbuilt.1, trivial⟩⟩,
      fun i hi => ⟨hi.1, Nat.zero_le i⟩⟩
  | join j =>
    simp only [runStep, hr] at h
    split_ifs at h with hj
    cases h
    refine ⟨⟨hn, fun i hi => hb i fun hbuilt => hi ⟨hbuilt.1, trivial⟩⟩, fun i hi => ?_⟩
    have hle : j ≤ i := by simpa [Active, hr] using hi.2
    exact absurd (hle.trans_lt hi.1) hj
  | clearEnd =>
    simp only [runStep, hr, Option.some.injEq] at h
    subst h
    exact ⟨⟨hn, fun _ _ => rfl⟩, fun i hi => by simp [Active, hr] at hi⟩
  | idle => simp [runStep, hr] at h

section Step

theorem isRunning_of_call {s : State κ ι α} (h : Inv s) {t : Thread κ ι}
    (ht : s.call t ≠ none) (k : κ) (i : ℕ) (he : t = .worker k i) :
    (s.worker (k, i)).isRunning := by
  subst he
  by_contra hr
  exact ht (h.quiet k i (by simpa using hr))

variable [DecidableEq κ]

/-- A step of the instance `k` alone that keeps its workers where they are. -/
theorem Inv.setInst {s : State κ ι α} (h : Inv s) {k : κ} {m : Instance α}
    (hm : InstanceOk m)
    (ha : ∀ i, Active (s.inst k) i → Active m i ∨ s.worker (k, i) = .off) :
    Inv (s.setInst k m) where
  inst k' := by
    rcases eq_or_ne k' k with rfl | hne
    · simpa using hm
    · simpa [hne] using h.inst k'
  off k' i hi := by
    by_contra hoff
    have hact := h.active hoff
    rcases eq_or_ne k' k with rfl | hne
    · rcases ha i hact with hact' | hoff'
      · exact hi (by simpa using hact')
      · exact hoff hoff'
    · exact hi (by simpa [hne] using hact)
  quiet := h.quiet
  outside_id := h.outside_id
  worker_id := h.worker_id
  route := h.route

/-- A worker that is in no `submit` moves on. -/
theorem Inv.setWorker {s : State κ ι α} (h : Inv s) {k : κ} {i : ℕ} {pc : WorkerPc α}
    (hact : Active (s.inst k) i) (hc : s.call (.worker k i) = none)
    (hid : pc.isStarted → s.tlWorkerId (.worker k i) = asInt i) : Inv (s.setWorker k i pc) where
  inst := h.inst
  off k' i' hi := by
    have hne : (k', i') ≠ (k, i) := by
      rintro he
      cases he
      exact hi hact
    simpa only [setWorker_worker, Function.update_of_ne hne] using h.off k' i' hi
  quiet k' i' hr := by
    by_cases he : (k', i') = (k, i)
    · cases he
      exact hc
    · exact h.quiet k' i' (by simpa only [setWorker_worker, Function.update_of_ne he] using hr)
  outside_id := h.outside_id
  worker_id k' i' hr := by
    by_cases he : (k', i') = (k, i)
    · cases he
      exact hid (by simpa using hr)
    · exact h.worker_id k' i' (by simpa only [setWorker_worker, Function.update_of_ne he] using hr)
  route := h.route

variable [DecidableEq ι]

theorem inv_init : Inv (machine κ ι α).init where
  inst _ := ⟨by simp [machine, initInstance], fun _ _ => rfl⟩
  off _ _ _ := rfl
  quiet _ _ _ := rfl
  outside_id _ := rfl
  worker_id _ _ h := by cases h
  route _ _ _ _ h := by cases h

/-- A worker that is in no `submit` gets its thread-local id. -/
theorem Inv.setId {s : State κ ι α} (h : Inv s) {k : κ} {i : ℕ} {wid : ℤ}
    (hc : s.call (.worker k i) = none)
    (hid : (s.worker (k, i)).isStarted → wid = asInt i) : Inv (s.setId (.worker k i) wid) where
  inst := h.inst
  off := h.off
  quiet := h.quiet
  outside_id o := by simpa using h.outside_id o
  worker_id k' i' hr := by
    by_cases he : (Thread.worker k' i' : Thread κ ι) = .worker k i
    · cases he
      simpa using hid hr
    · simpa only [setId_tlWorkerId, Function.update_of_ne he] using h.worker_id k' i' hr
  route t k' pc wid' ht hw := by
    have hne : t ≠ .worker k i := by
      rintro rfl
      rw [setId_call, hc] at ht
      cases ht
    simpa only [setId_tlWorkerId, Function.update_of_ne hne] using h.route t k' pc wid' ht hw

theorem Inv.setCall {s : State κ ι α} (h : Inv s) {t : Thread κ ι} {c : Option (κ × SubmitPc α)}
    (hr : ∀ k i, t = .worker k i → (s.worker (k, i)).isRunning)
    (hw : ∀ k pc wid, c = some (k, pc) → pc.wid? = some wid → wid = s.tlWorkerId t ∧ 0 ≤ wid) :
    Inv (s.setCall t c) where
  inst := h.inst
  off := h.off
  quiet k i hi := by
    have hne : Thread.worker k i ≠ t := by
      intro he
      rw [setCall_worker, hr k i he.symm] at hi
      cases hi
    simpa only [setCall_call, Function.update_of_ne hne] using h.quiet k i hi
  outside_id := h.outside_id
  worker_id := h.worker_id
  route t' k pc wid ht hwid := by
    rcases eq_or_ne t' t with rfl | hne
    · exact hw k pc wid (by simpa using ht) hwid
    · refine h.route t' k pc wid ?_ hwid
      simpa only [setCall_call, Function.update_of_ne hne] using ht

/-- The step of a worker, the thread-local id of a starting one apart. -/
theorem step_worker {s s' : State κ ι α} {k : κ} {i rng : ℕ}
    (hs : step s (.worker k i rng) = some s') :
    ∃ m' pc', workerStep (s.inst k) i rng (s.worker (k, i)) = some (m', pc') ∧
      s'.inst = Function.update s.inst k m' ∧
      s'.worker = Function.update s.worker (k, i) pc' ∧ s'.call = s.call := by
  simp only [step, Option.map_eq_some_iff, Prod.exists] at hs
  obtain ⟨m', pc', hm', rfl⟩ := hs
  refine ⟨m', pc', hm', ?_⟩
  cases s.worker (k, i) <;> exact ⟨rfl, rfl, rfl⟩

/-- `run` launches a worker, joins one, or makes an access to the members. -/
theorem step_runner {s s' : State κ ι α} {k : κ} (hs : step s (.runner k) = some s') :
    (∃ m', runStep (s.inst k) (s.inst k).run = some m' ∧ s' = s.setInst k m') ∨
      (∃ i, (s.inst k).run = .launch i ∧ i < (s.inst k).numWorkers ∧
        s' = ((s.setInst k { s.inst k with run := .launch (i + 1) }).setWorker k i .start).setId
          (.worker k i) (-1)) ∨
      ∃ i, (s.inst k).run = .join i ∧ i < (s.inst k).numWorkers ∧
        (s.worker (k, i)).isExited ∧
        s' = (s.setInst k { s.inst k with run := .join (i + 1) }).setWorker k i .off := by
  have hplain : (runStep (s.inst k) (s.inst k).run).map (s.setInst k) = some s' →
      ∃ m', runStep (s.inst k) (s.inst k).run = some m' ∧ s' = s.setInst k m' := by
    intro h
    obtain ⟨m', hm', rfl⟩ := Option.map_eq_some_iff.mp h
    exact ⟨m', hm', rfl⟩
  cases hr : (s.inst k).run with
  | launch i =>
    simp only [step, hr] at hs
    split_ifs at hs with hi
    · cases hs
      exact .inr (.inl ⟨i, rfl, hi, rfl⟩)
    · exact .inl (hr ▸ hplain (by rwa [hr]))
  | join i =>
    simp only [step, hr] at hs
    split_ifs at hs with hi hex
    · cases hs
      exact .inr (.inr ⟨i, rfl, hi, hex, rfl⟩)
    · exact .inl (hr ▸ hplain (by rwa [hr]))
  | _ =>
    simp only [step, hr] at hs
    exact .inl (hr ▸ hplain (by rwa [hr]))

/-- The accesses that change the members of instance `k`. -/
theorem inst_step {s s' : State κ ι α} {a : Action κ ι α} (k : κ) (hs : step s a = some s') :
    s'.inst k = s.inst k ∨
      (∃ t pc rest, a = .call t ∧ s.call t = some (k, pc) ∧
        submitStep (s.inst k) (s.tlWorkerId t) pc = some (s'.inst k, rest)) ∨
      (∃ i rng pc', a = .worker k i rng ∧
        workerStep (s.inst k) i rng (s.worker (k, i)) = some (s'.inst k, pc')) ∨
      (∃ i, a = .finish k i ∧ s'.inst k = { s.inst k with pending := (s.inst k).pending - 1 }) ∨
      (∃ n, a = .run k n ∧ (s.inst k).run = .idle ∧
        s'.inst k = { s.inst k with numWorkers := n, run := .clear }) ∨
      a = .runner k ∧ (runStep (s.inst k) (s.inst k).run = some (s'.inst k) ∨
        (∃ i, (s.inst k).run = .launch i ∧
          s'.inst k = { s.inst k with run := .launch (i + 1) }) ∨
        ∃ i, (s.inst k).run = .join i ∧ s'.inst k = { s.inst k with run := .join (i + 1) }) := by
  cases a with
  | submit t k' task =>
    simp only [step] at hs
    split_ifs at hs
    cases hs
    exact .inl rfl
  | call t =>
    cases hc : s.call t with
    | none => simp [step, hc] at hs
    | some c =>
      obtain ⟨k', pc⟩ := c
      simp only [step, hc, Option.map_eq_some_iff, Prod.exists] at hs
      obtain ⟨m', rest, hm', rfl⟩ := hs
      rcases eq_or_ne k k' with rfl | hne
      · exact .inr (.inl ⟨t, pc, rest, rfl, hc, by simpa using hm'⟩)
      · exact .inl (by simp [hne])
  | worker k' i rng =>
    obtain ⟨m', pc', hm', hinst, _⟩ := step_worker hs
    rcases eq_or_ne k k' with rfl | hne
    · exact .inr (.inr (.inl ⟨i, rng, pc', rfl, by simpa [hinst] using hm'⟩))
    · exact .inl (by simp [hinst, hne])
  | finish k' i =>
    cases hpc : s.worker (k', i) <;> simp only [step, hpc, reduceCtorEq] at hs
    cases hc : s.call (.worker k' i) <;> simp only [hc, reduceCtorEq, Option.some.injEq] at hs
    subst hs
    rcases eq_or_ne k k' with rfl | hne
    · exact .inr (.inr (.inr (.inl ⟨i, rfl, by simp⟩)))
    · exact .inl (by simp [hne])
  | run k' n =>
    cases hr : (s.inst k').run <;> simp only [step, hr, reduceCtorEq] at hs
    split_ifs at hs
    cases hs
    rcases eq_or_ne k k' with rfl | hne
    · exact .inr (.inr (.inr (.inr (.inl ⟨n, rfl, hr, by simp⟩))))
    · exact .inl (by simp [hne])
  | runner k' =>
    rcases eq_or_ne k k' with rfl | hne
    · refine .inr (.inr (.inr (.inr (.inr ⟨rfl, ?_⟩))))
      rcases step_runner hs with ⟨m', hm', rfl⟩ | ⟨i, hr, _, rfl⟩ | ⟨i, hr, _, _, rfl⟩
      · exact .inl (by simpa using hm')
      · exact .inr (.inl ⟨i, hr, by simp⟩)
      · exact .inr (.inr ⟨i, hr, by simp⟩)
    · rcases step_runner hs with ⟨m', hm', rfl⟩ | ⟨i, hr, _, rfl⟩ | ⟨i, hr, _, _, rfl⟩ <;>
        exact .inl (by simp [hne])

/-- Only `submit` itself moves a thread along a `submit`. -/
theorem call_eq_of_step {s s' : State κ ι α} {a : Action κ ι α}
    (hsub : ∀ t k task, a ≠ .submit t k task) (hcall : ∀ t, a ≠ .call t)
    (hs : step s a = some s') : s'.call = s.call := by
  cases a with
  | submit t k task => exact absurd rfl (hsub t k task)
  | call t => exact absurd rfl (hcall t)
  | worker k i rng =>
    obtain ⟨_, _, _, _, _, hc⟩ := step_worker hs
    exact hc
  | finish k i =>
    cases hpc : s.worker (k, i) <;> simp only [step, hpc, reduceCtorEq] at hs
    cases hc : s.call (.worker k i) <;> simp only [hc, reduceCtorEq, Option.some.injEq] at hs
    subst hs
    rfl
  | run k n =>
    cases hr : (s.inst k).run <;> simp only [step, hr, reduceCtorEq] at hs
    split_ifs at hs
    cases hs
    rfl
  | runner k =>
    rcases step_runner hs with ⟨m', _, rfl⟩ | ⟨i, _, _, rfl⟩ | ⟨i, _, _, _, rfl⟩ <;> rfl

theorem inv_step (s : State κ ι α) (a : Action κ ι α) (s' : State κ ι α) (h : Inv s)
    (hs : step s a = some s') : Inv s' := by
  cases a with
  | submit t k task =>
    simp only [step] at hs
    split_ifs at hs with hcan
    cases hs
    refine h.setCall ?_ ?_
    · rintro k' i rfl
      simp only [canSubmit, Bool.and_eq_true] at hcan
      exact hcan.1
    · rintro k' pc wid hc hwid
      cases hc
      cases hwid
  | call t =>
    cases hc : s.call t with
    | none => simp [step, hc] at hs
    | some c =>
      obtain ⟨k, pc⟩ := c
      simp only [step, hc, Option.map_eq_some_iff, Prod.exists] at hs
      obtain ⟨m', rest, hm', rfl⟩ := hs
      obtain ⟨hf, _, _, _, hroute⟩ := submitStep_spec (h.inst k) hm'
      have hrun := isRunning_of_call h (t := t) (by simp [hc])
      refine (h.setInst (hf.ok (h.inst k)) fun i hi => .inl (hf.active.mpr hi)).setCall hrun ?_
      rintro k' pc' wid he hwid
      obtain ⟨pc'', hrest, hpc⟩ := Option.map_eq_some_iff.mp he
      cases hpc
      rcases hroute wid (by simp [hrest, hwid]) with hold | hnew
      · exact h.route t k pc wid hc hold
      · exact hnew
  | worker k i rng =>
    simp only [step, Option.map_eq_some_iff, Prod.exists] at hs
    obtain ⟨m', pc', hm', rfl⟩ := hs
    obtain ⟨hf, _, _, _, hrun, _⟩ := workerStep_spec (h.inst k) hm'
    have hne : s.worker (k, i) ≠ .off := by
      intro he
      simp [he, workerStep] at hm'
    have hcall : s.call (.worker k i) = none := h.quiet k i hrun
    have hi : Inv (s.setInst k m') := h.setInst (hf.ok (h.inst k)) fun i hi => .inl (hf.active.mpr hi)
    have hact : Active ((s.setInst k m').inst k) i := by
      simpa using hf.active.mpr (h.active hne)
    cases hpc : s.worker (k, i) with
    | start =>
      rw [hpc] at hm'
      cases hm'
      have hset : Inv ((s.setInst k (s.inst k)).setId (.worker k i) (asInt i)) :=
        hi.setId hcall fun _ => rfl
      exact hset.setWorker hact hcall fun _ => by simp
    | off => exact absurd hpc hne
    | _ => exact hi.setWorker hact hcall fun _ => h.worker_id k i (by simp [hpc, WorkerPc.isStarted])
  | finish k i =>
    cases hpc : s.worker (k, i) <;> simp only [step, hpc, reduceCtorEq] at hs
    cases hc : s.call (.worker k i) <;> simp only [hc, reduceCtorEq, Option.some.injEq] at hs
    subst hs
    have hm : InstanceOk { s.inst k with pending := (s.inst k).pending - 1 } :=
      (h.inst k).mono rfl (fun _ hb => hb) fun _ hd => hd
    have hact : Active (s.inst k) i := h.active (by simp [hpc])
    refine (h.setInst hm fun _ hi => .inl hi).setWorker ?_ hc fun _ => ?_
    · rw [setInst_inst, Function.update_self]
      exact hact
    exact h.worker_id k i (by simp [hpc, WorkerPc.isStarted])
  | run k n =>
    cases hr : (s.inst k).run <;> simp only [step, hr, reduceCtorEq] at hs
    split_ifs at hs with hn
    cases hs
    refine h.setInst ⟨hn, fun i _ => (h.inst k).unbuilt i (by simp [Built, hr])⟩ fun i hi => ?_
    simp [Active, hr] at hi
  | runner k =>
    have hm := h.inst k
    rcases step_runner hs with ⟨m', hm', rfl⟩ | ⟨i, hr, hi, rfl⟩ | ⟨i, hr, hi, hex, rfl⟩
    · exact h.setInst (runStep_ok hm hm').1 fun i hi => .inl ((runStep_ok hm hm').2 i hi)
    · have hoff : s.worker (k, i) = .off := h.off k i (by simp [Active, hr])
      have hcall : s.call (.worker k i) = none := h.quiet k i (by rw [hoff]; rfl)
      have hi' : Inv (s.setInst k { s.inst k with run := .launch (i + 1) }) := by
        refine h.setInst (hm.mono rfl (fun j hj => ⟨hj.1, trivial⟩) fun _ hd => hd) fun j hj => ?_
        have hlt : j < i := by simpa [Active, hr] using hj.2
        exact .inl ⟨hj.1, hlt.trans (Nat.lt_succ_self i)⟩
      refine (hi'.setWorker ?_ hcall fun hst => by cases hst).setId hcall fun hst => ?_
      · simpa [Active] using hi
      · simp [WorkerPc.isStarted] at hst
    · have hi' : s.worker (k, i) ≠ .off := by
        intro he
        simp [he, WorkerPc.isExited] at hex
      have hcall : s.call (.worker k i) = none := by
        refine h.quiet k i ?_
        cases hw : s.worker (k, i) <;> simp_all [WorkerPc.isExited, WorkerPc.isRunning]
      have hoff : Inv (s.setWorker k i .off) :=
        h.setWorker (h.active hi') hcall fun hst => by cases hst
      refine hoff.setInst (hm.mono rfl (fun j hj => ⟨hj.1, trivial⟩) fun _ hd => hd) fun j hj => ?_
      rcases eq_or_ne j i with rfl | hne
      · exact .inr (by simp)
      · have hle : i ≤ j := by simpa [Active, hr] using hj.2
        exact .inl ⟨hj.1, Nat.lt_of_le_of_ne hle hne.symm⟩

end Step

end TaskScheduler.WorkStealing
