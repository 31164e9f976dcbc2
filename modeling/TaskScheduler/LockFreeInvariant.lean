import TaskScheduler.LockFreeModel
import TaskScheduler.RingAccounting

/-!
# The scheduler over its ring

Every step of the scheduler is a step of the ring or leaves the ring alone, and each thread
is inside `enqueue` or `dequeue` exactly when its own control says so.
-/
namespace TaskScheduler.LockFree
open Transition

variable {ι ω α : Type*} [DecidableEq ι] [DecidableEq ω]
  {log2Ring : ℕ} {s s' : State ι ω α} {a : Action ι ω α}

theorem onRing_eq_some {e : Ring.Action (Thread ι ω) α} :
    s.onRing log2Ring e = some s' ↔
      ∃ r, Ring.step log2Ring s.ring e = some r ∧ s' = { s with ring := r } := by
  simp [State.onRing, eq_comm]

/-- The operation on the ring that the step makes. -/
def ringLabel (s : State ι ω α) : Action ι ω α → Option (Ring.Action (Thread ι ω) α)
  | .submit i task => some (.enqueue (.outside i) task)
  | .spawn w task => some (.enqueue (.worker w) task)
  | .access t spurious => some (.access t spurious)
  | .worker w =>
    match s.worker w with
    | .fetch => some (.finish (.worker w))
    | .decrement _ => some (.dequeue (.worker w))
    | .checkShutdown => if s.shutdown then none else some (.dequeue (.worker w))
    | _ => none
  | .runner =>
    match s.run with
    | .launch _ _ (w :: _) => some (.dequeue (.worker w))
    | _ => none
  | .drain =>
    match s.ring.threads .destructor with
    | .idle => some (.dequeue .destructor)
    | _ => some (.finish .destructor)
  | _ => none

/-- The change of the control state that the step makes, besides its operation on the ring. -/
inductive Effect (s : State ι ω α) : Action ι ω α → State ι ω α → Prop
  | submit {i : ι} {task : α} (h : s.run.excludes i = false) :
      Effect s (.submit i task) { s with pending := int64 (s.pending + 1) }
  | spawn {w : ω} {task task' : α} (h : s.worker w = .running task') :
      Effect s (.spawn w task)
        { s.setWorker w (.submitting task') with pending := int64 (s.pending + 1) }
  | access {t : Thread ι ω} {spurious : Bool} : Effect s (.access t spurious) s
  | take {w : ω} {task : α} (h : s.worker w = .fetch)
      (ht : s.ring.threads (.worker w) = .returned (some task)) :
      Effect s (.worker w) (s.setWorker w (.running task))
  | empty {w : ω} (h : s.worker w = .fetch) (ht : s.ring.threads (.worker w) = .returned none) :
      Effect s (.worker w) (s.setWorker w .checkShutdown)
  | submitted {w : ω} {task : α} (h : s.worker w = .submitting task)
      (ht : s.ring.threads (.worker w) = .idle) :
      Effect s (.worker w) (s.setWorker w (.running task))
  | decrement {w : ω} {task : α} (h : s.worker w = .decrement task) :
      Effect s (.worker w) ({ s with pending := int64 (s.pending - 1) }.setWorker w .fetch)
  | exit {w : ω} (h : s.worker w = .checkShutdown) (hs : s.shutdown = true) :
      Effect s (.worker w) (s.setWorker w .exited)
  | retry {w : ω} (h : s.worker w = .checkShutdown) (hs : s.shutdown = false) :
      Effect s (.worker w) (s.setWorker w .fetch)
  | finish {w : ω} {task : α} (h : s.worker w = .running task) :
      Effect s (.finish w) (s.setWorker w (.decrement task))
  | run {i : ι} {crew : List ω} (h : s.run = .idle) (hi : s.ring.threads (.outside i) = .idle)
      (hc : crew.Nodup) : Effect s (.run i crew) { s with shutdown := false, run := .launch i crew crew }
  | launch {i : ι} {crew rest : List ω} {w : ω} (h : s.run = .launch i crew (w :: rest)) :
      Effect s .runner ({ s with run := .launch i crew rest }.setWorker w .fetch)
  | launched {i : ι} {crew : List ω} (h : s.run = .launch i crew []) :
      Effect s .runner { s with run := .wait i crew }
  | spin {i : ι} {crew : List ω} (h : s.run = .wait i crew) (hp : s.pending > 0) :
      Effect s .runner s
  | zero {i : ι} {crew : List ω} (h : s.run = .wait i crew) (hp : ¬ s.pending > 0) :
      Effect s .runner { s with run := .setShutdown i crew }
  | shutdown {i : ι} {crew : List ω} (h : s.run = .setShutdown i crew) :
      Effect s .runner { s with shutdown := true, run := .join i crew crew }
  | join {i : ι} {crew rest : List ω} {w : ω} (h : s.run = .join i crew (w :: rest))
      (hw : s.worker w = .exited) :
      Effect s .runner ({ s with run := .join i crew rest }.setWorker w .off)
  | ret {i : ι} {crew : List ω} (h : s.run = .join i crew []) :
      Effect s .runner { s with run := .idle }
  | destroy (h : s.run = .idle) (hi : ∀ i, s.ring.threads (.outside i) = .idle) :
      Effect s .destroy { s with run := .draining }
  | drain (h : s.run = .draining) (ht : s.ring.threads .destructor ≠ .returned none) :
      Effect s .drain s
  | drained (h : s.run = .draining) (ht : s.ring.threads .destructor = .returned none) :
      Effect s .drain { s with run := .destroyed }

/-- The step of the ring under a step of the scheduler, if there is one. -/
def ringStep (log2Ring : ℕ) (r : Ring.State (Thread ι ω) α) :
    Option (Ring.Action (Thread ι ω) α) → Option (Ring.State (Thread ι ω) α)
  | some e => Ring.step log2Ring r e
  | none => some r

theorem onRing_ringStep {u : State ι ω α} {e : Ring.Action (Thread ι ω) α}
    (h : u.onRing log2Ring e = some s') :
    ∃ r, ringStep log2Ring u.ring (some e) = some r ∧ s' = { u with ring := r } :=
  onRing_eq_some.mp h

theorem isIdle_iff {pc : Ring.Pc α} : pc.isIdle = true ↔ pc = .idle := by
  cases pc <;> simp [Ring.Pc.isIdle]

theorem workerStep_effect {w : ω} (hs : workerStep log2Ring s w = some s') :
    ∃ u r, Effect s (.worker w) u ∧
      ringStep log2Ring s.ring (ringLabel s (.worker w)) = some r ∧ s' = { u with ring := r } := by
  cases hw : s.worker w with
  | fetch =>
    cases ht : s.ring.threads (.worker w) with
    | returned task =>
      have hlabel : ringLabel s (.worker w) = some (.finish (.worker w)) := by
        simp only [ringLabel, hw]
      rw [hlabel]
      cases task with
      | some task =>
        simp only [workerStep, hw, ht] at hs
        obtain ⟨r, hr, rfl⟩ := onRing_ringStep hs
        exact ⟨_, r, .take hw ht, hr, rfl⟩
      | none =>
        simp only [workerStep, hw, ht] at hs
        obtain ⟨r, hr, rfl⟩ := onRing_ringStep hs
        exact ⟨_, r, .empty hw ht, hr, rfl⟩
    | _ => simp [workerStep, hw, ht] at hs
  | submitting task =>
    have hlabel : ringLabel s (.worker w) = none := by simp only [ringLabel, hw]
    rw [hlabel]
    cases ht : s.ring.threads (.worker w) <;>
      simp only [workerStep, hw, ht, reduceCtorEq, Option.some.injEq] at hs
    subst hs
    exact ⟨_, s.ring, .submitted hw ht, rfl, rfl⟩
  | decrement task =>
    have hlabel : ringLabel s (.worker w) = some (.dequeue (.worker w)) := by
      simp only [ringLabel, hw]
    rw [hlabel]
    simp only [workerStep, hw] at hs
    obtain ⟨r, hr, rfl⟩ := onRing_ringStep hs
    exact ⟨_, r, .decrement hw, hr, rfl⟩
  | checkShutdown =>
    simp only [workerStep, hw] at hs
    cases hshut : s.shutdown with
    | true =>
      have hlabel : ringLabel s (.worker w) = none := by simp only [ringLabel, hw, hshut, if_true]
      rw [hlabel]
      simp only [hshut, if_true, Option.some.injEq] at hs
      subst hs
      exact ⟨_, s.ring, .exit hw hshut, rfl, rfl⟩
    | false =>
      have hlabel : ringLabel s (.worker w) = some (.dequeue (.worker w)) := by
        simp [ringLabel, hw, hshut]
      rw [hlabel]
      simp only [hshut, Bool.false_eq_true, if_false] at hs
      obtain ⟨r, hr, rfl⟩ := onRing_ringStep hs
      exact ⟨_, r, .retry hw hshut, hr, rfl⟩
  | _ => simp [workerStep, hw] at hs

theorem runStep_effect (hs : runStep log2Ring s = some s') :
    ∃ u r, Effect s .runner u ∧
      ringStep log2Ring s.ring (ringLabel s .runner) = some r ∧ s' = { u with ring := r } := by
  cases hr : s.run with
  | launch i crew rest =>
    cases rest with
    | nil =>
      simp only [runStep, hr, Option.some.injEq] at hs
      subst hs
      exact ⟨_, s.ring, .launched hr, by simp only [ringLabel, hr, ringStep], rfl⟩
    | cons w rest =>
      simp only [runStep, hr] at hs
      obtain ⟨r, hstep, rfl⟩ := onRing_ringStep hs
      exact ⟨_, r, .launch hr, by simp only [ringLabel, hr]; exact hstep, rfl⟩
  | wait i crew =>
    simp only [runStep, hr] at hs
    split_ifs at hs with hp <;> cases hs
    · exact ⟨_, s.ring, .spin hr hp, by simp only [ringLabel, hr, ringStep], rfl⟩
    · exact ⟨_, s.ring, .zero hr hp, by simp only [ringLabel, hr, ringStep], rfl⟩
  | setShutdown i crew =>
    simp only [runStep, hr, Option.some.injEq] at hs
    subst hs
    exact ⟨_, s.ring, .shutdown hr, by simp only [ringLabel, hr, ringStep], rfl⟩
  | join i crew rest =>
    cases rest with
    | nil =>
      simp only [runStep, hr, Option.some.injEq] at hs
      subst hs
      exact ⟨_, s.ring, .ret hr, by simp only [ringLabel, hr, ringStep], rfl⟩
    | cons w rest =>
      cases hw : s.worker w <;> simp only [runStep, hr, hw, reduceCtorEq, Option.some.injEq] at hs
      subst hs
      exact ⟨_, s.ring, .join hr hw, by simp only [ringLabel, hr, ringStep], rfl⟩
  | _ => simp [runStep, hr] at hs

theorem drainStep_effect (hs : drainStep log2Ring s = some s') :
    ∃ u r, Effect s .drain u ∧
      ringStep log2Ring s.ring (ringLabel s .drain) = some r ∧ s' = { u with ring := r } := by
  cases hr : s.run with
  | draining =>
    cases ht : s.ring.threads .destructor with
    | returned task =>
      have hlabel : ringLabel s .drain = some (.finish .destructor) := by
        simp only [ringLabel, ht]
      rw [hlabel]
      cases task with
      | some task =>
        simp only [drainStep, hr, ht] at hs
        obtain ⟨r, hstep, rfl⟩ := onRing_ringStep hs
        exact ⟨_, r, .drain hr (by simp [ht]), hstep, rfl⟩
      | none =>
        simp only [drainStep, hr, ht] at hs
        obtain ⟨r, hstep, rfl⟩ := onRing_ringStep hs
        exact ⟨_, r, .drained hr ht, hstep, rfl⟩
    | idle =>
      have hlabel : ringLabel s .drain = some (.dequeue .destructor) := by
        simp only [ringLabel, ht]
      rw [hlabel]
      simp only [drainStep, hr, ht] at hs
      obtain ⟨r, hstep, rfl⟩ := onRing_ringStep hs
      exact ⟨_, r, .drain hr (by simp [ht]), hstep, rfl⟩
    | _ => simp [drainStep, hr, ht] at hs
  | _ => simp [drainStep, hr] at hs

/-- Every step is one change of the control state together with its operation on the ring. -/
theorem step_effect [Fintype ι] (hs : step log2Ring s a = some s') :
    ∃ u r, Effect s a u ∧ ringStep log2Ring s.ring (ringLabel s a) = some r ∧
      s' = { u with ring := r } := by
  cases a with
  | submit i task =>
    simp only [step] at hs
    split_ifs at hs with hx
    obtain ⟨r, hr, rfl⟩ := onRing_ringStep hs
    exact ⟨_, r, .submit (by simpa using hx), hr, rfl⟩
  | spawn w task =>
    cases hw : s.worker w <;> simp only [step, hw, reduceCtorEq] at hs
    obtain ⟨r, hr, rfl⟩ := onRing_ringStep hs
    exact ⟨_, r, .spawn hw, hr, rfl⟩
  | access t spurious =>
    obtain ⟨r, hr, rfl⟩ := onRing_ringStep hs
    exact ⟨_, r, .access, hr, rfl⟩
  | worker w => exact workerStep_effect hs
  | finish w =>
    cases hw : s.worker w <;> simp only [step, hw, reduceCtorEq, Option.some.injEq] at hs
    subst hs
    exact ⟨_, s.ring, .finish hw, rfl, rfl⟩
  | run i crew =>
    cases hr : s.run <;> simp only [step, hr, reduceCtorEq] at hs
    split_ifs at hs with hc
    cases hs
    exact ⟨_, s.ring, .run hr (isIdle_iff.mp hc.1) hc.2, rfl, rfl⟩
  | runner => exact runStep_effect hs
  | destroy =>
    cases hr : s.run <;> simp only [step, hr, reduceCtorEq] at hs
    split_ifs at hs with hi
    cases hs
    exact ⟨_, s.ring, .destroy hr fun i => isIdle_iff.mp (hi i), rfl, rfl⟩
  | drain => exact drainStep_effect hs

/-- Where the ring thread of a worker is, by the control of the worker. -/
def WorkerOk : WorkerPc α → Ring.Pc α → Prop
  | .fetch, pc => pc.isDequeue
  | .submitting _, pc => pc = .idle ∨ pc.isEnqueue
  | _, pc => pc = .idle

/-- The workers that are not part of the current `run`, not launched yet or joined already, do
not exist. -/
def CrewOk (worker : ω → WorkerPc α) : RunPc ι ω → Prop
  | .launch _ crew rest =>
    crew.Nodup ∧ rest <:+ crew ∧ ∀ w, w ∉ crew ∨ w ∈ rest → worker w = .off
  | .wait _ crew | .setShutdown _ crew => ∀ w ∉ crew, worker w = .off
  | .join _ crew rest => rest <:+ crew ∧ ∀ w ∉ rest, worker w = .off
  | _ => ∀ w, worker w = .off

structure Control (threads : Thread ι ω → Ring.Pc α) (worker : ω → WorkerPc α)
    (run : RunPc ι ω) : Prop where
  workers : ∀ w, WorkerOk (worker w) (threads (.worker w))
  outside : ∀ i, threads (.outside i) = .idle ∨ (threads (.outside i)).isEnqueue
  excluded : ∀ i, run.excludes i → threads (.outside i) = .idle
  destructor : threads .destructor = .idle ∨ run = .draining ∧ (threads .destructor).isDequeue
  crew : CrewOk worker run

section Control
variable {threads : Thread ι ω → Ring.Pc α} {worker : ω → WorkerPc α} {run run' : RunPc ι ω}

omit [DecidableEq ι] in
theorem CrewOk.update (h : CrewOk worker run) {w : ω} (hw : worker w ≠ .off) (pc : WorkerPc α) :
    CrewOk (Function.update worker w pc) run := by
  have hkeep : ∀ w', worker w' = .off → Function.update worker w pc w' = .off := by
    intro w' hoff
    have hne : w' ≠ w := fun he => hw (he ▸ hoff)
    rw [Function.update_of_ne hne, hoff]
  cases run with
  | launch i crew rest => exact ⟨h.1, h.2.1, fun w' hw' => hkeep w' (h.2.2 w' hw')⟩
  | wait i crew => exact fun w' hw' => hkeep w' (h w' hw')
  | setShutdown i crew => exact fun w' hw' => hkeep w' (h w' hw')
  | join i crew rest => exact ⟨h.1, fun w' hw' => hkeep w' (h.2 w' hw')⟩
  | _ => exact fun w' => hkeep w' (h w')

theorem Control.onWorker (h : Control threads worker run) {w : ω} {pc : Ring.Pc α}
    {wpc : WorkerPc α} (hok : WorkerOk wpc pc) (hrun : ∀ i, run'.excludes i → run.excludes i)
    (hdrain : run = .draining → run' = .draining)
    (hcrew : CrewOk (Function.update worker w wpc) run') :
    Control (Function.update threads (.worker w) pc) (Function.update worker w wpc) run' where
  workers w' := by
    rcases eq_or_ne w' w with rfl | hne
    · simpa using hok
    · have hne' : Thread.worker (ι := ι) w' ≠ .worker w := by simpa using hne
      rw [Function.update_of_ne hne, Function.update_of_ne hne']
      exact h.workers w'
  outside i := by simpa using h.outside i
  excluded i hi := by simpa using h.excluded i (hrun i hi)
  destructor := by
    simp only [ne_eq, reduceCtorEq, not_false_eq_true, Function.update_of_ne]
    exact h.destructor.imp_right fun hd => ⟨hdrain hd.1, hd.2⟩
  crew := hcrew

/-- A worker moves on while `run` stays where it is. -/
theorem Control.moveWorker (h : Control threads worker run) {w : ω} {pc : Ring.Pc α}
    {wpc : WorkerPc α} (hw : worker w ≠ .off) (hok : WorkerOk wpc pc) :
    Control (Function.update threads (.worker w) pc) (Function.update worker w wpc) run :=
  h.onWorker hok (fun _ => id) id (h.crew.update hw wpc)

/-- A worker moves on while its ring thread is idle. -/
theorem Control.moveIdle (h : Control threads worker run) {w : ω} {wpc : WorkerPc α}
    (hw : worker w ≠ .off) (hidle : threads (.worker w) = .idle) (hok : WorkerOk wpc .idle) :
    Control threads (Function.update worker w wpc) run := by
  have hmove := h.moveWorker hw hok
  rwa [← hidle, Function.update_eq_self] at hmove

theorem Control.onOutside (h : Control threads worker run) {i : ι} {pc : Ring.Pc α}
    (hpc : pc = .idle ∨ pc.isEnqueue) (hi : run.excludes i = false) :
    Control (Function.update threads (.outside i) pc) worker run where
  workers w := by simpa using h.workers w
  outside i' := by
    rcases eq_or_ne i' i with rfl | hne
    · simpa using hpc
    · have hne' : Thread.outside (ω := ω) i' ≠ .outside i := by simpa using hne
      rw [Function.update_of_ne hne']
      exact h.outside i'
  excluded i' hi' := by
    have hne : i' ≠ i := by
      rintro rfl
      rw [hi] at hi'
      cases hi'
    have hne' : Thread.outside (ω := ω) i' ≠ .outside i := by simpa using hne
    rw [Function.update_of_ne hne']
    exact h.excluded i' hi'
  destructor := by simpa using h.destructor
  crew := h.crew

theorem Control.onDestructor (h : Control threads worker run) {pc : Ring.Pc α}
    (hpc : pc = .idle ∨ run' = .draining ∧ pc.isDequeue)
    (hrun : ∀ i, run'.excludes i → run.excludes i) (hcrew : CrewOk worker run') :
    Control (Function.update threads .destructor pc) worker run' where
  workers w := by simpa using h.workers w
  outside i := by simpa using h.outside i
  excluded i hi := by simpa using h.excluded i (hrun i hi)
  destructor := by simpa using hpc
  crew := hcrew

omit [DecidableEq ω] in
/-- `run` moves on by itself. -/
theorem Control.setRun (h : Control threads worker run)
    (hidle : ∀ i, run'.excludes i → threads (.outside i) = .idle)
    (hdrain : run ≠ .draining) (hcrew : CrewOk worker run') : Control threads worker run' where
  workers := h.workers
  outside := h.outside
  excluded := hidle
  destructor := .inl (h.destructor.resolve_right fun hd => hdrain hd.1)
  crew := hcrew

end Control

theorem control_init [Fintype ι] : Control (machine ι ω α log2Ring).init.ring.threads
    (machine ι ω α log2Ring).init.worker (machine ι ω α log2Ring).init.run where
  workers _ := rfl
  outside _ := .inl rfl
  excluded _ h := by simp [machine, RunPc.excludes] at h
  destructor := .inl rfl
  crew _ := rfl

/-- The step of the ring moves one thread. -/
theorem ring_threads {r : Ring.State (Thread ι ω) α} {e : Ring.Action (Thread ι ω) α}
    {label : Option (Ring.Action (Thread ι ω) α)} (hr : ringStep log2Ring s.ring label = some r)
    (hl : label = some e) : ∃ pc, r.threads = Function.update s.ring.threads e.thread pc ∧
      Ring.Moves (s.ring.threads e.thread) e pc := by
  subst hl
  exact Ring.step_threads hr

theorem ring_same {r : Ring.State (Thread ι ω) α}
    {label : Option (Ring.Action (Thread ι ω) α)} (hr : ringStep log2Ring s.ring label = some r)
    (hl : label = none) : r = s.ring := by
  subst hl
  exact (Option.some.inj hr).symm

/-- An access stays inside the operation of its thread. -/
theorem Control.access {threads : Thread ι ω → Ring.Pc α} {worker : ω → WorkerPc α}
    {run : RunPc ι ω} (h : Control threads worker run) {t : Thread ι ω} {spurious : Bool}
    {pc : Ring.Pc α} (hm : Ring.Moves (threads t) (.access t spurious) pc) :
    Control (Function.update threads t pc) worker run := by
  have hbusy : threads t ≠ .idle := by
    intro hidle
    rw [hidle] at hm
    rcases hm with ⟨hp, -⟩ | ⟨hp, -⟩ <;> cases hp
  cases t with
  | outside i =>
    refine h.onOutside ?_ ?_
    · rcases hm with ⟨-, hp⟩ | ⟨hp, -⟩
      · exact hp
      · exact absurd hp (Ring.Pc.not_isDequeue ((h.outside i).resolve_left hbusy))
    · by_contra hx
      exact hbusy (h.excluded i (by simpa using hx))
  | worker w =>
    have hok := h.workers w
    rw [← Function.update_eq_self w worker]
    refine h.moveWorker ?_ ?_
    · intro hoff
      rw [hoff] at hok
      exact hbusy hok
    · cases hw : worker w <;> rw [hw] at hok <;> first | exact absurd hok hbusy | skip
      · rcases hm with ⟨hp, -⟩ | ⟨-, hp⟩
        · exact absurd hok (Ring.Pc.not_isDequeue hp)
        · exact hp
      · rcases hm with ⟨-, hp⟩ | ⟨hp, -⟩
        · exact hp
        · exact absurd hp (Ring.Pc.not_isDequeue (hok.resolve_left hbusy))
  | destructor =>
    obtain ⟨hdrain, hd⟩ := h.destructor.resolve_left hbusy
    refine h.onDestructor ?_ (fun _ => id) h.crew
    rcases hm with ⟨hp, -⟩ | ⟨-, hp⟩
    · exact absurd hd (Ring.Pc.not_isDequeue hp)
    · exact .inr ⟨hdrain, hp⟩

theorem drain_threads {r : Ring.State (Thread ι ω) α}
    (hr : ringStep log2Ring s.ring (ringLabel s .drain) = some r) :
    s.ring.threads .destructor = .idle ∧
        r.threads = Function.update s.ring.threads .destructor .loadTail ∨
      (∃ task, s.ring.threads .destructor = .returned task) ∧
        r.threads = Function.update s.ring.threads .destructor .idle := by
  by_cases hidle : s.ring.threads .destructor = .idle
  · have hl : ringLabel s .drain = some (.dequeue .destructor) := by simp only [ringLabel, hidle]
    obtain ⟨pc, hth, -, rfl⟩ := ring_threads hr hl
    exact .inl ⟨hidle, hth⟩
  · have hl : ringLabel s .drain = some (.finish .destructor) := by
      cases hpc : s.ring.threads .destructor <;> simp_all [ringLabel]
    obtain ⟨pc, hth, rfl, htask⟩ := ring_threads hr hl
    exact .inr ⟨htask, hth⟩

/-- The control facts of a state. -/
def State.Control (s : State ι ω α) : Prop :=
  LockFree.Control s.ring.threads s.worker s.run

theorem control_step [Fintype ι] (h : s.Control) (hs : step log2Ring s a = some s') :
    s'.Control := by
  obtain ⟨u, r, he, hr, rfl⟩ := step_effect hs
  unfold State.Control at h ⊢
  cases he with
  | submit hx =>
    obtain ⟨pc, hth, -, rfl⟩ := ring_threads hr rfl
    rw [hth]
    exact h.onOutside (.inr rfl) hx
  | spawn hw =>
    obtain ⟨pc, hth, -, rfl⟩ := ring_threads hr rfl
    rw [hth]
    exact h.moveWorker (by simp [hw]) (.inr rfl)
  | access =>
    obtain ⟨pc, hth, hm⟩ := ring_threads hr rfl
    rw [hth]
    exact h.access hm
  | @take w task hw ht =>
    have hl : ringLabel s (.worker w) = some (.finish (.worker w)) := by simp only [ringLabel, hw]
    obtain ⟨pc, hth, rfl, -⟩ := ring_threads hr hl
    rw [hth]
    exact h.moveWorker (by simp [hw]) rfl
  | @empty w hw ht =>
    have hl : ringLabel s (.worker w) = some (.finish (.worker w)) := by simp only [ringLabel, hw]
    obtain ⟨pc, hth, rfl, -⟩ := ring_threads hr hl
    rw [hth]
    exact h.moveWorker (by simp [hw]) rfl
  | @submitted w task hw ht =>
    obtain rfl := ring_same hr (by simp only [ringLabel, hw])
    exact h.moveIdle (by simp [hw]) ht rfl
  | @decrement w task hw =>
    have hl : ringLabel s (.worker w) = some (.dequeue (.worker w)) := by
      simp only [ringLabel, hw]
    obtain ⟨pc, hth, -, rfl⟩ := ring_threads hr hl
    rw [hth]
    exact h.moveWorker (by simp [hw]) rfl
  | @exit w hw hshut =>
    obtain rfl := ring_same hr (by simp only [ringLabel, hw, hshut, if_true])
    have hidle := h.workers w
    rw [hw] at hidle
    exact h.moveIdle (by simp [hw]) hidle rfl
  | @retry w hw hshut =>
    have hl : ringLabel s (.worker w) = some (.dequeue (.worker w)) := by
      simp [ringLabel, hw, hshut]
    obtain ⟨pc, hth, -, rfl⟩ := ring_threads hr hl
    rw [hth]
    exact h.moveWorker (by simp [hw]) rfl
  | @finish w task hw =>
    obtain rfl := ring_same hr rfl
    have hidle := h.workers w
    rw [hw] at hidle
    exact h.moveIdle (by simp [hw]) hidle rfl
  | @run i crew hrun hi hc =>
    obtain rfl := ring_same hr rfl
    have hcrew := h.crew
    rw [hrun] at hcrew
    refine h.setRun (fun i' hi' => ?_) (by simp [hrun]) ⟨hc, List.suffix_rfl, fun w _ => hcrew w⟩
    obtain rfl : i = i' := of_decide_eq_true hi'
    exact hi
  | @launch i crew rest w hrun =>
    have hl : ringLabel s .runner = some (.dequeue (.worker w)) := by simp only [ringLabel, hrun]
    obtain ⟨pc, hth, -, rfl⟩ := ring_threads hr hl
    have hcrew := h.crew
    rw [hrun] at hcrew
    obtain ⟨hnodup, hsuffix, hoff⟩ := hcrew
    rw [hth]
    refine h.onWorker rfl (fun i' hi' => ?_) (by simp [hrun]) ⟨hnodup, ?_, fun w' hw' => ?_⟩
    · rw [hrun]
      exact hi'
    · exact (List.suffix_cons w rest).trans hsuffix
    · have hne : w' ≠ w := by
        rintro rfl
        have hmem : w' ∈ crew := hsuffix.subset (by simp)
        have hnotin := (List.nodup_cons.mp (hnodup.sublist hsuffix.sublist)).1
        exact hw'.elim (fun hn => hn hmem) hnotin
      change Function.update s.worker w .fetch w' = .off
      rw [Function.update_of_ne hne]
      exact hoff w' (hw'.imp_right (List.mem_cons_of_mem w))
  | launched hrun =>
    obtain rfl := ring_same hr (by simp only [ringLabel, hrun])
    have hcrew := h.crew
    rw [hrun] at hcrew
    refine h.setRun (fun i' hi' => h.excluded i' ?_) (by simp [hrun]) fun w hw =>
      hcrew.2.2 w (.inl hw)
    rw [hrun]
    exact hi'
  | spin hrun hp =>
    obtain rfl := ring_same hr (by simp only [ringLabel, hrun])
    exact h
  | zero hrun hp =>
    obtain rfl := ring_same hr (by simp only [ringLabel, hrun])
    have hcrew := h.crew
    rw [hrun] at hcrew
    refine h.setRun (fun i' hi' => h.excluded i' ?_) (by simp [hrun]) hcrew
    rw [hrun]
    exact hi'
  | shutdown hrun =>
    obtain rfl := ring_same hr (by simp only [ringLabel, hrun])
    have hcrew := h.crew
    rw [hrun] at hcrew
    refine h.setRun (fun i' hi' => h.excluded i' ?_) (by simp [hrun]) ⟨List.suffix_rfl, hcrew⟩
    rw [hrun]
    exact hi'
  | @join i crew rest w hrun hw =>
    obtain rfl := ring_same hr (by simp only [ringLabel, hrun])
    have hidle := h.workers w
    rw [hw] at hidle
    have hcrew := h.crew
    rw [hrun] at hcrew
    have hmove : Control (Function.update s.ring.threads (.worker w) .idle)
        (Function.update s.worker w .off) (.join i crew rest) := by
      refine h.onWorker rfl (fun i' hi' => ?_) (by simp [hrun]) ⟨?_, fun w' hw' => ?_⟩
      · rw [hrun]
        exact hi'
      · exact (List.suffix_cons w rest).trans hcrew.1
      · rcases eq_or_ne w' w with rfl | hne
        · exact Function.update_self _ _ _
        · rw [Function.update_of_ne hne]
          exact hcrew.2 w' (by simp [hne, hw'])
    rwa [← hidle, Function.update_eq_self] at hmove
  | ret hrun =>
    obtain rfl := ring_same hr (by simp only [ringLabel, hrun])
    have hcrew := h.crew
    rw [hrun] at hcrew
    exact h.setRun (fun i' hi' => by cases hi') (by simp [hrun]) fun w => hcrew.2 w (by simp)
  | destroy hrun hi =>
    obtain rfl := ring_same hr rfl
    have hcrew := h.crew
    rw [hrun] at hcrew
    exact h.setRun (fun i' _ => hi i') (by simp [hrun]) hcrew
  | drain hrun ht =>
    rcases drain_threads hr with ⟨-, hth⟩ | ⟨-, hth⟩
    · rw [hth]
      exact h.onDestructor (.inr ⟨hrun, rfl⟩) (fun _ => id) h.crew
    · rw [hth]
      exact h.onDestructor (.inl rfl) (fun _ => id) h.crew
  | drained hrun ht =>
    have hcrew := h.crew
    rw [hrun] at hcrew
    rcases drain_threads hr with ⟨hidle, -⟩ | ⟨-, hth⟩
    · rw [hidle] at ht
      cases ht
    · rw [hth]
      exact h.onDestructor (.inl rfl) (fun _ _ => by rw [hrun]; rfl) hcrew

/-- Every reachable state has its threads where their control says. -/
theorem control_of_run [Fintype ι] {tr : List (State ι ω α × Action ι ω α)}
    (h : Run (machine ι ω α log2Ring) tr s) : s.Control :=
  Run.invariant (I := State.Control) control_init (fun _ _ _ hu hs => control_step hu hs) h

/-- The scheduler seen as a ring with its threads. -/
def refinement (ι ω α : Type*) [DecidableEq ι] [Fintype ι] [DecidableEq ω] (log2Ring : ℕ) :
    Refinement (machine ι ω α log2Ring) (Ring.machine (Thread ι ω) α log2Ring) fun _ => True where
  map s := s.ring
  label := ringLabel
  init := rfl
  step s a s' _ hs := by
    obtain ⟨u, r, -, hr, rfl⟩ := step_effect hs
    cases hl : ringLabel s a with
    | some e =>
      rw [hl] at hr
      exact hr
    | none =>
      rw [hl] at hr
      exact (Option.some.inj hr).symm

theorem ring_run [Fintype ι] {tr : List (State ι ω α × Action ι ω α)}
    (h : Run (machine ι ω α log2Ring) tr s) :
    Run (Ring.machine (Thread ι ω) α log2Ring) ((refinement ι ω α log2Ring).trace tr) s.ring :=
  (refinement ι ω α log2Ring).run trivial (fun _ _ _ _ _ => trivial) h

/-- The tasks of a run in the order of their positions in the ring. -/
def positions [Fintype ι] (log2Ring : ℕ) (tr : List (State ι ω α × Action ι ω α)) : List α :=
  log Ring.reserved ((refinement ι ω α log2Ring).trace tr)

theorem log_enqueued [Fintype ι] (log2Ring : ℕ) (tr : List (State ι ω α × Action ι ω α)) :
    log Ring.enqueued ((refinement ι ω α log2Ring).trace tr) = log submitted tr := by
  rw [Refinement.log_map]
  congr 1
  funext s a
  cases a with
  | worker w => cases hw : s.worker w <;> simp [refinement, ringLabel, hw, Ring.enqueued, submitted]
  | runner =>
    cases hr : s.run with
    | launch i crew rest => cases rest <;> simp [refinement, ringLabel, hr, Ring.enqueued, submitted]
    | _ => simp [refinement, ringLabel, hr, submitted]
  | drain =>
    cases ht : s.ring.threads .destructor <;>
      simp [refinement, ringLabel, ht, Ring.enqueued, submitted]
  | _ => simp [refinement, ringLabel, Ring.enqueued, submitted]

variable [Fintype ι] [Fintype ω] {tr : List (State ι ω α × Action ι ω α)}

theorem positions_length_le (h : Run (machine ι ω α log2Ring) tr s) :
    (positions log2Ring tr).length ≤ (log submitted tr).length :=
  log_enqueued log2Ring tr ▸ Ring.length_le (ring_run h)

theorem ring_inv (hlo : 1 ≤ log2Ring) (hhi : log2Ring ≤ 63)
    (h : Run (machine ι ω α log2Ring) tr s) (hsmall : (log submitted tr).length < 2 ^ 63) :
    Ring.Inv (kRingSize log2Ring) (positions log2Ring tr) s.ring :=
  Ring.inv_of_run hlo hhi (ring_run h) ((positions_length_le h).trans_lt hsmall)

end TaskScheduler.LockFree
