import TaskScheduler.Counting
import TaskScheduler.Transition

/-!
# Task pools

A driver that submits tasks and waits for them, and the tasks, each of which may submit more.
A bounded number of threads runs the tasks, in any order.
-/
namespace TaskPool
open Transition

variable {μ θ : Type*}

/-- The code of the driver and of the tasks, over shared memory `μ` and the local states `θ` of
the tasks. One step may submit one task; code without a next step is at its end. -/
structure Program (μ θ : Type*) where
  init : μ
  main : μ → Option (μ × Option θ)
  step : μ → θ → Option (μ × θ × Option θ)

inductive Status
  | queued
  | running
  | done
deriving DecidableEq

/-- Before the driver waits, while it waits, and after that. -/
inductive Phase
  | before
  | running
  | after
deriving DecidableEq

/-- `tasks` lists the tasks in the order of their submission. -/
structure Pool (μ θ : Type*) where
  mem : μ
  tasks : List (Status × θ)
  phase : Phase

inductive Action
  | main
  | run
  | start (j : ℕ)
  | task (j : ℕ)
  | ret

/-- The pool after a step of the driver. -/
def Pool.afterMain (p : Pool μ θ) (r : μ × Option θ) : Pool μ θ :=
  { p with mem := r.1, tasks := p.tasks ++ r.2.toList.map fun t => (.queued, t) }

/-- The pool after a step of the task `j`. -/
def Pool.afterTask (p : Pool μ θ) (j : ℕ) (r : μ × θ × Option θ) : Pool μ θ :=
  { p with
    mem := r.1
    tasks := p.tasks.set j (.running, r.2.1) ++ r.2.2.toList.map fun t => (.queued, t) }

def Pool.setStatus (p : Pool μ θ) (j : ℕ) (x : Status) (t : θ) : Pool μ θ :=
  { p with tasks := p.tasks.set j (x, t) }

def Pool.status (p : Pool μ θ) (j : ℕ) : Option Status := p.tasks[j]?.map Prod.fst

/-- The number of threads that are busy with a task. -/
def Pool.busy (p : Pool μ θ) : ℕ := p.tasks.countP fun e => e.1 = .running

section Status
variable (p : Pool μ θ) (i j : ℕ) (x : Status) (t : θ) (r : μ × Option θ) (r' : μ × θ × Option θ)

theorem length_afterMain :
    (p.afterMain r).tasks.length = p.tasks.length + r.2.toList.length := by
  simp [Pool.afterMain]

theorem length_afterTask :
    (p.afterTask j r').tasks.length = p.tasks.length + r'.2.2.toList.length := by
  simp [Pool.afterTask]

@[simp] theorem length_setStatus : (p.setStatus j x t).tasks.length = p.tasks.length := by
  simp [Pool.setStatus]

variable {p i j}

theorem status_afterMain (hi : i < p.tasks.length) : (p.afterMain r).status i = p.status i := by
  simp [Pool.status, Pool.afterMain, List.getElem?_append_left hi]

theorem status_afterTask (hj : p.status j = some .running) (hi : i < p.tasks.length) :
    (p.afterTask j r').status i = p.status i := by
  have hset : i < (p.tasks.set j (.running, r'.2.1)).length := by rwa [List.length_set]
  simp only [Pool.status, Pool.afterTask, List.getElem?_append_left hset, List.getElem?_set]
  split_ifs with he hlt
  · subst he
    exact hj.symm
  · exact absurd (he ▸ hi) hlt
  · rfl

theorem status_setStatus (hi : i < p.tasks.length) :
    (p.setStatus j x t).status i = if j = i then some x else p.status i := by
  simp only [Pool.status, Pool.setStatus, List.getElem?_set]
  split_ifs with he hlt
  · rfl
  · exact absurd (he ▸ hi) hlt
  · rfl

theorem countP_eq_card (l : List (Status × θ)) : (l.countP fun e => e.1 = .running) =
    ((Finset.range l.length).filter fun j => l[j]?.map Prod.fst = some .running).card := by
  induction l using List.reverseRecOn with
  | nil => rfl
  | append_singleton l e ih =>
    have hold : ∀ j ∈ Finset.range l.length, ((l ++ [e])[j]?.map Prod.fst = some .running ↔
        l[j]?.map Prod.fst = some .running) := fun j hj => by
      rw [List.getElem?_append_left (Finset.mem_range.mp hj)]
    rw [List.countP_append, ih, List.length_append, List.length_singleton, Finset.range_add_one,
      Finset.filter_insert, Finset.filter_congr hold]
    simp only [List.getElem?_concat_length, Option.map_some, Option.some.injEq,
      List.countP_singleton, decide_eq_true_eq]
    split_ifs
    · rw [Finset.card_insert_of_notMem (by simp)]
    · rfl

theorem busy_eq (p : Pool μ θ) :
    p.busy = ((Finset.range p.tasks.length).filter fun j => p.status j = some .running).card :=
  countP_eq_card p.tasks

/-- The tasks that a step submits are queued. -/
theorem status_new_main (hi : p.tasks.length ≤ i) (hlt : i < (p.afterMain r).tasks.length) :
    (p.afterMain r).status i = some .queued := by
  obtain ⟨m, t | t⟩ := r
  · simp [Pool.afterMain] at hlt
    omega
  · simp only [Pool.afterMain, Option.toList_some, List.map_singleton, List.length_append,
      List.length_singleton] at hlt
    obtain rfl : i = p.tasks.length := by omega
    simp [Pool.status, Pool.afterMain]

theorem status_new_task (hi : p.tasks.length ≤ i) (hlt : i < (p.afterTask j r').tasks.length) :
    (p.afterTask j r').status i = some .queued := by
  obtain ⟨m, t', t | t⟩ := r'
  · simp [Pool.afterTask] at hlt
    omega
  · simp only [Pool.afterTask, Option.toList_some, List.map_singleton, List.length_append,
      List.length_set, List.length_singleton] at hlt
    obtain rfl : i = p.tasks.length := by omega
    simp [Pool.status, Pool.afterTask]

end Status

def step (P : Program μ θ) (n : ℕ) (p : Pool μ θ) : Action → Option (Pool μ θ)
  | .main => if p.phase = .before then (P.main p.mem).map p.afterMain else none
  | .run =>
    if p.phase = .before ∧ (P.main p.mem).isNone then some { p with phase := .running } else none
  | .start j =>
    match p.tasks[j]? with
    | some (.queued, t) =>
      if p.phase = .running ∧ p.busy < n then some (p.setStatus j .running t) else none
    | _ => none
  | .task j =>
    match p.tasks[j]? with
    | some (.running, t) =>
      match P.step p.mem t with
      | some r => some (p.afterTask j r)
      | none => some (p.setStatus j .done t)
    | _ => none
  | .ret =>
    if p.phase = .running ∧ ∀ e ∈ p.tasks, e.1 = .done then some { p with phase := .after }
    else none

/-- A pool of `n` threads. -/
def machine (P : Program μ θ) (n : ℕ) : Machine (Pool μ θ) Action where
  init := { mem := P.init, tasks := [], phase := .before }
  step := step P n

/-- What a step of the pool is. -/
inductive Effect (P : Program μ θ) (n : ℕ) (p : Pool μ θ) : Action → Pool μ θ → Prop
  | main {r : μ × Option θ} (hp : p.phase = .before) (hm : P.main p.mem = some r) :
      Effect P n p .main (p.afterMain r)
  | run (hp : p.phase = .before) (hm : P.main p.mem = none) :
      Effect P n p .run { p with phase := .running }
  | start {j : ℕ} {t : θ} (hj : p.tasks[j]? = some (.queued, t)) (hp : p.phase = .running)
      (hn : p.busy < n) : Effect P n p (.start j) (p.setStatus j .running t)
  | task {j : ℕ} {t : θ} {r : μ × θ × Option θ} (hj : p.tasks[j]? = some (.running, t))
      (hs : P.step p.mem t = some r) : Effect P n p (.task j) (p.afterTask j r)
  | done {j : ℕ} {t : θ} (hj : p.tasks[j]? = some (.running, t)) (hs : P.step p.mem t = none) :
      Effect P n p (.task j) (p.setStatus j .done t)
  | ret (hp : p.phase = .running) (hd : ∀ e ∈ p.tasks, e.1 = .done) :
      Effect P n p .ret { p with phase := .after }

variable {P : Program μ θ} {n : ℕ} {p p' : Pool μ θ} {a : Action}

theorem step_effect (h : step P n p a = some p') : Effect P n p a p' := by
  cases a with
  | main =>
    simp only [step] at h
    split_ifs at h with hp
    obtain ⟨r, hr, rfl⟩ := Option.map_eq_some_iff.mp h
    exact .main hp hr
  | run =>
    simp only [step] at h
    split_ifs at h with hp
    cases h
    exact .run hp.1 (by simpa using hp.2)
  | start j =>
    simp only [step] at h
    split at h
    · rename_i t hj
      split_ifs at h with hp
      cases h
      exact .start hj hp.1 hp.2
    · cases h
  | task j =>
    simp only [step] at h
    split at h
    · rename_i t hj
      cases hs : P.step p.mem t <;> rw [hs] at h <;> cases h
      · exact .done hj hs
      · exact .task hj hs
    · cases h
  | ret =>
    simp only [step] at h
    split_ifs at h with hp
    cases h
    exact .ret hp.1 hp.2

theorem Effect.step (h : Effect P n p a p') : step P n p a = some p' := by
  cases h with
  | main hp hm => simp only [TaskPool.step, hp, if_true, hm, Option.map_some]
  | run hp hm => simp [TaskPool.step, hp, hm]
  | start hj hp hn =>
    simp only [TaskPool.step, hj]
    exact if_pos ⟨hp, hn⟩
  | task hj hs => simp only [TaskPool.step, hj, hs]
  | done hj hs => simp only [TaskPool.step, hj, hs]
  | ret hp hd => exact if_pos ⟨hp, hd⟩

section Conserved
variable {M : Type*} [AddCancelCommMonoid M] {c : μ → M} {w : θ → M}

/-- What the submissions of a step bring in. -/
def brought (w : θ → M) (o : Option θ) : M := o.elim 0 w

theorem sum_submitted (w : θ → M) (l : List (Status × θ)) (o : Option θ) :
    ((l ++ o.toList.map fun t => (Status.queued, t)).map fun e => w e.2).sum =
      (l.map fun e => w e.2).sum + brought w o := by
  cases o <;> simp [brought]

/-- A quantity of the memory and of the tasks together that no step of the code changes. -/
theorem conserved_step (hmain : ∀ m r, P.main m = some r → c r.1 + brought w r.2 = c m)
    (hstep : ∀ m t r, P.step m t = some r →
      c r.1 + (w r.2.1 + brought w r.2.2) = c m + w t) (h : Effect P n p a p') :
    c p'.mem + (p'.tasks.map fun e => w e.2).sum = c p.mem + (p.tasks.map fun e => w e.2).sum := by
  cases h with
  | @main r _ hm =>
    simp only [Pool.afterMain, sum_submitted]
    rw [← hmain _ _ hm]
    abel
  | @start j t hj _ _ | @done j t hj _ =>
    exact congrArg _ (add_right_cancel (Counting.sum_map_set (fun e => w e.2) hj _))
  | @task j t r hj hs =>
    have hset := Counting.sum_map_set (fun e : Status × θ => w e.2) hj (.running, r.2.1)
    apply add_right_cancel (b := w t)
    calc c (p.afterTask j r).mem + ((p.afterTask j r).tasks.map fun e => w e.2).sum + w t
        = c r.1 + brought w r.2.2 +
          (((p.tasks.set j (.running, r.2.1)).map fun e => w e.2).sum + w t) := by
          simp only [Pool.afterTask, sum_submitted]
          abel
      _ = c r.1 + (w r.2.1 + brought w r.2.2) + (p.tasks.map fun e => w e.2).sum := by
          rw [hset]
          abel
      _ = c p.mem + (p.tasks.map fun e => w e.2).sum + w t := by
          rw [hstep _ _ _ hs]
          abel
  | run | ret => rfl

theorem conserved (hmain : ∀ m r, P.main m = some r → c r.1 + brought w r.2 = c m)
    (hstep : ∀ m t r, P.step m t = some r →
      c r.1 + (w r.2.1 + brought w r.2.2) = c m + w t) (h : Reachable (machine P n) p) :
    c p.mem + (p.tasks.map fun e => w e.2).sum = c P.init := by
  obtain ⟨tr, htr⟩ := h
  refine Run.invariant (I := fun p => c p.mem + (p.tasks.map fun e => w e.2).sum = c P.init)
    (add_zero _) (fun u b v hu hs => ?_) htr
  exact (conserved_step hmain hstep (step_effect hs)).trans hu

end Conserved

/-- When the driver has returned, every task is at its end. -/
theorem done_of_after (h : Reachable (machine P n) p) (hp : p.phase = .after) :
    ∀ e ∈ p.tasks, e.1 = .done := by
  obtain ⟨tr, htr⟩ := h
  refine Run.invariant (I := fun p : Pool μ θ => p.phase = .after → ∀ e ∈ p.tasks, e.1 = .done)
    (fun h => by cases h) (fun u b v hu hs hv => ?_) htr hp
  cases step_effect hs with
  | main hb _ => cases hb.symm.trans hv
  | run hb _ => cases hv
  | start _ hb _ => cases hb.symm.trans hv
  | task hj _ | done hj _ => cases hu hv _ (List.mem_of_getElem? hj)
  | ret hb hd => exact hd

/-- When the driver waits or has returned, its code is at its end, if no task changes that; and
so is the code of a task that is done. -/
theorem ended (hstay : ∀ m t r, P.main m = none → P.step m t = some r → P.main r.1 = none)
    (hend : ∀ m m' t, P.step m t = none → P.step m' t = none) (h : Reachable (machine P n) p) :
    (p.phase ≠ .before → P.main p.mem = none) ∧
      ∀ t, (.done, t) ∈ p.tasks → ∀ m, P.step m t = none := by
  obtain ⟨tr, htr⟩ := h
  refine Run.invariant (I := fun p : Pool μ θ => (p.phase ≠ .before → P.main p.mem = none) ∧
    ∀ t, (.done, t) ∈ p.tasks → ∀ m, P.step m t = none) ⟨fun h => absurd rfl h, by simp [machine]⟩
    (fun u b v hu hs => ?_) htr
  obtain ⟨hcode, hdone⟩ := hu
  cases step_effect hs with
  | @main r hb _ =>
    refine ⟨fun h => absurd hb h, fun t ht => ?_⟩
    rcases List.mem_append.mp ht with ht | ht
    · exact hdone t ht
    · simp at ht
  | run _ hm => exact ⟨fun _ => hm, hdone⟩
  | start hj hb _ =>
    refine ⟨fun _ => hcode (by simp [hb]), fun t ht => ?_⟩
    rcases List.mem_or_eq_of_mem_set ht with ht | ht
    · exact hdone t ht
    · cases ht
  | task hj hr =>
    refine ⟨fun h => hstay _ _ _ (hcode h) hr, fun t ht => ?_⟩
    rcases List.mem_append.mp ht with ht | ht
    · rcases List.mem_or_eq_of_mem_set ht with ht | ht
      · exact hdone t ht
      · cases ht
    · simp at ht
  | @done j t hj hr =>
    refine ⟨hcode, fun t' ht => ?_⟩
    rcases List.mem_or_eq_of_mem_set ht with ht | ht
    · exact hdone t' ht
    · cases ht
      exact fun m => hend _ m t hr
  | ret hb _ => exact ⟨fun _ => hcode (by simp [hb]), hdone⟩

end TaskPool
