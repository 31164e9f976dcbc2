import TaskScheduler.DagCompletion
import TaskScheduler.LockFreeExecutor
import TaskScheduler.MutexExecutor
import TaskScheduler.StealingExecutor

/-!
# Graphs on the schedulers

`execute` and the tasks of its nodes as a program that calls a scheduler: on each of the three
schedulers it runs as it does in the model of `execute` alone.
-/
namespace TaskScheduler.Dag
open Transition Relation Precedence

/-- What the driver and the tasks share; `next` is the position of the seeding loop. -/
structure Counters where
  depsRemaining : ℕ → ℤ
  remainingNodes : ℤ
  next : ℕ

/-- The seeding loop of `execute`. -/
def seedLoop (g : Graph) (m : Counters) : Option (Counters × Option Task) :=
  if m.next < g.size then
    some ({ m with next := m.next + 1 },
      if m.depsRemaining m.next = 0 then some ⟨m.next, .fn⟩ else none)
  else none

/-- The next access of a task, and the task that it submits. -/
def nodeTask (g : Graph) (m : Counters) (t : Task) : Option (Counters × Task × Option Task) :=
  match t.pc with
  | .fn => some (m, { t with pc := .succ 0 }, none)
  | .succ k =>
    match (g.successors t.node)[k]? with
    | some v =>
      let prev := m.depsRemaining v
      some ({ m with depsRemaining := Function.update m.depsRemaining v (int32 (prev - 1)) },
        { t with pc := if prev = 1 then .submit k else .succ (k + 1) }, none)
    | none => some (m, { t with pc := .finish }, none)
  | .submit k =>
    (g.successors t.node)[k]?.map fun v => (m, { t with pc := .succ (k + 1) }, some ⟨v, .fn⟩)
  | .finish =>
    some ({ m with remainingNodes := m.remainingNodes - 1 }, { t with pc := .done }, none)
  | _ => none

def program (g : Graph) : TaskPool.Program Counters Task where
  init := { depsRemaining := g.depsRemaining, remainingNodes := g.size, next := 0 }
  main := seedLoop g
  step := nodeTask g

/-- A task of the pool, as `execute` sees it. -/
def taskOf (e : TaskPool.Status × Task) : Task :=
  if e.1 = .queued then { e.2 with pc := .queued } else e.2

def phaseOf (p : TaskPool.Pool Counters Task) : Phase :=
  match p.phase with
  | .before => .seeding p.mem.next
  | .running => .running
  | .after => .returned

def stateOf (p : TaskPool.Pool Counters Task) : State where
  depsRemaining := p.mem.depsRemaining
  remainingNodes := p.mem.remainingNodes
  tasks := p.tasks.map taskOf
  phase := phaseOf p

/-- Where the task of an entry stands. -/
structure Entry (g : Graph) (e : TaskPool.Status × Task) : Prop where
  begun : e.2.pc ≠ .queued
  queued : e.1 = .queued → e.2.pc = .fn
  done : e.1 = .done → e.2.pc = .done
  ok : e.2.pc.Ok (g.successors e.2.node).length

variable {g : Graph} {p p' : TaskPool.Pool Counters Task} {n : ℕ}

theorem entry_new (v : ℕ) : Entry g (.queued, ⟨v, .fn⟩) where
  begun := by simp
  queued _ := rfl
  done h := by cases h
  ok := trivial

theorem entry_running {t : Task} (hq : t.pc ≠ .queued)
    (hok : t.pc.Ok (g.successors t.node).length) : Entry g (.running, t) where
  begun := hq
  queued h := by cases h
  done h := by cases h
  ok := hok

/-- A task without a next access has counted itself off. -/
theorem Entry.at_end {m : Counters} {x : TaskPool.Status} {t : Task} (h : Entry g (x, t)) :
    nodeTask g m t = none ↔ t.pc = .done := by
  unfold nodeTask
  cases hpc : t.pc with
  | queued => exact absurd hpc h.begun
  | submit k =>
    have hok := h.ok
    rw [hpc] at hok
    have hk : k < (g.successors t.node).length := hok
    simp [List.getElem?_eq_getElem hk]
  | succ k => cases hv : (g.successors t.node)[k]? <;> simp [hv]
  | fn | finish | done => simp

/-- What an access of a task is. -/
inductive Access (g : Graph) (m : Counters) (t : Task) : Counters × Task × Option Task → Prop
  | fn (hpc : t.pc = .fn) : Access g m t (m, { t with pc := .succ 0 }, none)
  | count {k v : ℕ} (hpc : t.pc = .succ k) (hv : (g.successors t.node)[k]? = some v) :
      Access g m t
        ({ m with
            depsRemaining :=
              Function.update m.depsRemaining v (int32 (m.depsRemaining v - 1)) },
          { t with pc := if m.depsRemaining v = 1 then .submit k else .succ (k + 1) }, none)
  | last {k : ℕ} (hpc : t.pc = .succ k) (hv : (g.successors t.node)[k]? = none) :
      Access g m t (m, { t with pc := .finish }, none)
  | submit {k v : ℕ} (hpc : t.pc = .submit k) (hv : (g.successors t.node)[k]? = some v) :
      Access g m t (m, { t with pc := .succ (k + 1) }, some ⟨v, .fn⟩)
  | finish (hpc : t.pc = .finish) :
      Access g m t ({ m with remainingNodes := m.remainingNodes - 1 }, { t with pc := .done }, none)

theorem nodeTask_access {m : Counters} {t : Task} {r : Counters × Task × Option Task}
    (hs : nodeTask g m t = some r) : Access g m t r := by
  unfold nodeTask at hs
  cases hpc : t.pc with
  | fn =>
    rw [hpc] at hs
    cases hs
    exact .fn hpc
  | succ k =>
    rw [hpc] at hs
    cases hv : (g.successors t.node)[k]? with
    | some v =>
      simp only [hv, Option.some.injEq] at hs
      subst hs
      exact .count hpc hv
    | none =>
      simp only [hv, Option.some.injEq] at hs
      subst hs
      exact .last hpc hv
  | submit k =>
    rw [hpc] at hs
    obtain ⟨v, hv, rfl⟩ := Option.map_eq_some_iff.mp hs
    exact .submit hpc hv
  | finish =>
    rw [hpc] at hs
    cases hs
    exact .finish hpc
  | queued | done =>
    rw [hpc] at hs
    cases hs

theorem Access.entry {m : Counters} {t : Task} {r : Counters × Task × Option Task}
    (hr : Access g m t r) :
    Entry g (.running, r.2.1) ∧ (∀ u, r.2.2 = some u → Entry g (.queued, u)) ∧
      r.1.next = m.next := by
  cases hr with
  | fn hpc => exact ⟨entry_running (by simp) (Nat.zero_le _), by simp, rfl⟩
  | @count k v hpc hv =>
    have hk : k < (g.successors t.node).length := (List.getElem?_eq_some_iff.mp hv).1
    by_cases hone : m.depsRemaining v = 1
    · rw [if_pos hone]
      exact ⟨entry_running (by simp) hk, by simp, rfl⟩
    · rw [if_neg hone]
      exact ⟨entry_running (by simp) hk, by simp, rfl⟩
  | last hpc hv => exact ⟨entry_running (by simp) trivial, by simp, rfl⟩
  | submit hpc hv =>
    refine ⟨entry_running (by simp) (List.getElem?_eq_some_iff.mp hv).1, fun u hu => ?_, rfl⟩
    cases hu
    exact entry_new _
  | finish hpc => exact ⟨entry_running (by simp) trivial, by simp, rfl⟩

/-- The invariant of the pool that runs the program. -/
def Entries (g : Graph) (p : TaskPool.Pool Counters Task) : Prop := ∀ e ∈ p.tasks, Entry g e

theorem Entries.set (h : Entries g p) {j : ℕ} {e : TaskPool.Status × Task} (he : Entry g e)
    {l : List (TaskPool.Status × Task)} (hl : ∀ x ∈ l, Entry g x) :
    ∀ x ∈ p.tasks.set j e ++ l, Entry g x := by
  intro x hx
  rcases List.mem_append.mp hx with hx | hx
  · rcases List.mem_or_eq_of_mem_set hx with hx | rfl
    · exact h x hx
    · exact he
  · exact hl x hx

theorem entries_new {o : Option Task} (h : ∀ u, o = some u → Entry g (.queued, u)) :
    ∀ x ∈ o.toList.map fun t => (TaskPool.Status.queued, t), Entry g x := by
  intro x hx
  obtain ⟨u, hu, rfl⟩ := List.mem_map.mp hx
  exact h u (Option.mem_toList.mp hu)

theorem entries_step {a : TaskPool.Action} (h : Entries g p)
    (hs : (TaskPool.machine (program g) n).step p a = some p') : Entries g p' := by
  cases TaskPool.step_effect hs with
  | @main r hp hm =>
    have hnew : ∀ u, r.2 = some u → Entry g (.queued, u) := by
      intro u hu
      change seedLoop g p.mem = some r at hm
      unfold seedLoop at hm
      split_ifs at hm <;> cases hm <;> cases hu
      exact entry_new _
    intro x hx
    rcases List.mem_append.mp hx with hx | hx
    · exact h x hx
    · exact entries_new hnew x hx
  | run hp hm => exact h
  | start hj hp hn =>
    intro x hx
    rcases List.mem_or_eq_of_mem_set hx with hx | rfl
    · exact h x hx
    · have hold := h _ (List.mem_of_getElem? hj)
      exact entry_running hold.begun hold.ok
  | task hj hr =>
    obtain ⟨hold, hnew, -⟩ := (nodeTask_access hr).entry
    exact h.set hold (entries_new hnew)
  | @done j t hj hr =>
    have hold := h _ (List.mem_of_getElem? hj)
    intro x hx
    rcases List.mem_or_eq_of_mem_set hx with hx | rfl
    · exact h x hx
    · exact ⟨hold.begun, fun h => (by cases h), fun _ => hold.at_end.mp hr, hold.ok⟩
  | ret hp hd => exact h

theorem taskOf_running (t : Task) : taskOf (.running, t) = t := rfl

theorem getElem?_stateOf {j : ℕ} {e : TaskPool.Status × Task} (hj : p.tasks[j]? = some e) :
    (stateOf p).tasks[j]? = some (taskOf e) := by
  rw [stateOf, List.getElem?_map, hj, Option.map_some]

/-- One pass of the seeding loop. -/
theorem seed_main {r : Counters × Option Task} (hp : p.phase = .before)
    (hm : seedLoop g p.mem = some r) :
    step g n (stateOf p) .seed = some (stateOf (p.afterMain r)) := by
  unfold seedLoop at hm
  split_ifs at hm with hlt hz
  all_goals
    cases hm
    simp [step, stateOf, phaseOf, hp, hlt, hz, submitNode, TaskPool.Pool.afterMain, taskOf]

theorem seed_run (hp : p.phase = .before) (hm : seedLoop g p.mem = none) :
    step g n (stateOf p) .seed = some (stateOf { p with phase := .running }) := by
  unfold seedLoop at hm
  split_ifs at hm with hlt
  simp [step, stateOf, phaseOf, hp, hlt]

/-- A worker that runs a task in the model of `execute` is a busy thread of the pool. -/
theorem busy_le (p : TaskPool.Pool Counters Task) (h : Entries g p) :
    (stateOf p).tasks.countP (·.pc.isBusy) ≤ p.busy := by
  rw [stateOf, List.countP_map]
  refine List.countP_mono_left fun e he hb => ?_
  obtain ⟨x, t⟩ := e
  cases x with
  | queued => simp [taskOf, TaskPc.isBusy] at hb
  | running => rfl
  | done =>
    have hpc : t.pc = .done := (h _ he).done rfl
    simp [taskOf, hpc, TaskPc.isBusy] at hb

theorem start_step {j : ℕ} {t : Task} (h : Entries g p)
    (hj : p.tasks[j]? = some (.queued, t)) (hp : p.phase = .running) (hn : p.busy < n) :
    step g n (stateOf p) (.start j) = some (stateOf (p.setStatus j .running t)) := by
  have hfn : t.pc = .fn := (h _ (List.mem_of_getElem? hj)).queued rfl
  have hphase : (stateOf p).phase = .running := by simp [stateOf, phaseOf, hp]
  have hbusy := (busy_le p h).trans_lt hn
  simp only [step, hphase, getElem?_stateOf hj]
  refine (if_pos ⟨rfl, hbusy⟩).trans (congrArg some ?_)
  simp only [State.setPc, stateOf, TaskPool.Pool.setStatus, phaseOf, List.map_set, taskOf_running,
    ← hfn]
  rfl

theorem stateOf_afterTask {j : ℕ} {r : Counters × Task × Option Task}
    (h : r.1.next = p.mem.next) :
    stateOf (p.afterTask j r) =
      { depsRemaining := r.1.depsRemaining
        remainingNodes := r.1.remainingNodes
        tasks := (stateOf p).tasks.set j r.2.1 ++
          r.2.2.toList.map fun u => { u with pc := .queued }
        phase := (stateOf p).phase } := by
  simp only [stateOf, TaskPool.Pool.afterTask, phaseOf, h, List.map_append, List.map_set,
    List.map_map, taskOf_running]
  rfl

theorem Access.step {j : ℕ} {t : Task} {r : Counters × Task × Option Task}
    (hr : Access g p.mem t r) : taskStep g (stateOf p) j t = some (stateOf (p.afterTask j r)) := by
  rw [stateOf_afterTask hr.entry.2.2]
  cases hr with
  | fn hpc => simp [taskStep, hpc, State.setPc, stateOf]
  | count hpc hv =>
    simp only [taskStep, hpc, hv, State.setPc, stateOf, Option.toList_none, List.map_nil,
      List.append_nil]
    rfl
  | last hpc hv => simp [taskStep, hpc, hv, State.setPc, stateOf]
  | submit hpc hv => simp [taskStep, hpc, hv, State.setPc, submitNode, stateOf]
  | finish hpc => simp [taskStep, hpc, State.setPc, stateOf]

theorem ret_step (h : Entries g p) (hp : p.phase = .running)
    (hd : ∀ e ∈ p.tasks, e.1 = .done) :
    step g n (stateOf p) .ret = some (stateOf { p with phase := .after }) := by
  refine if_pos ⟨by simp [stateOf, phaseOf, hp], fun t ht => ?_⟩
  obtain ⟨⟨x, u⟩, he, rfl⟩ := List.mem_map.mp ht
  obtain rfl : x = .done := hd _ he
  exact (h _ he).done rfl

/-- The step of `execute` that a step of the pool is; the end of a task is none. -/
def label (p : TaskPool.Pool Counters Task) : TaskPool.Action → Option Action
  | .main | .run => some .seed
  | .start j => some (.start j)
  | .task j => if ∃ t, (stateOf p).tasks[j]? = some t ∧ t.pc = .done then none else some (.task j)
  | .ret => some .ret

theorem label_task {j : ℕ} {t : Task} (hj : p.tasks[j]? = some (.running, t)) :
    label p (.task j) = if t.pc = .done then none else some (.task j) := by
  simp [label, getElem?_stateOf hj, taskOf_running]

theorem stateOf_done {j : ℕ} {t : Task} (hj : p.tasks[j]? = some (.running, t)) :
    stateOf (p.setStatus j .done t) = stateOf p := by
  obtain ⟨hlt, ht⟩ := List.getElem?_eq_some_iff.mp (getElem?_stateOf hj)
  have hsame : (p.tasks.map taskOf).set j t = p.tasks.map taskOf := by
    conv_lhs => rw [show t = (p.tasks.map taskOf)[j] from ht.symm]
    exact List.set_getElem_self hlt
  simp only [stateOf, TaskPool.Pool.setStatus, phaseOf, List.map_set,
    show taskOf (.done, t) = t from rfl, hsame]

/-- The program, run by a pool of threads, does what the model of `execute` does. -/
def refinement (g : Graph) (n : ℕ) :
    Refinement (TaskPool.machine (program g) n) (machine g n) (Entries g) where
  map := stateOf
  label := label
  init := rfl
  step p a p' hp hs := by
    cases TaskPool.step_effect hs with
    | main hphase hm => exact seed_main (n := n) hphase hm
    | run hphase hm => exact seed_run (n := n) hphase hm
    | start hj hphase hn => exact start_step hp hj hphase hn
    | @task j t r hj hr =>
      have hentry := hp _ (List.mem_of_getElem? hj)
      have hpc : t.pc ≠ .done := fun hpc => by
        cases hr.symm.trans (hentry.at_end.mpr hpc)
      rw [label_task hj, if_neg hpc]
      exact (congrArg (Option.bind · _) (getElem?_stateOf hj)).trans (nodeTask_access hr).step
    | done hj hr =>
      rw [label_task hj, if_pos ((hp _ (List.mem_of_getElem? hj)).at_end.mp hr)]
      exact stateOf_done hj
    | ret hphase hd => exact ret_step (n := n) hp hphase hd

theorem ran_le (v : ℕ) (tasks : List Task) :
    total (Task.ran v) tasks ≤ (tasks.map Task.node).count v := by
  induction tasks with
  | nil => exact le_rfl
  | cons t tasks ih =>
    have hran : t.ran v ≤ if t.node = v then 1 else 0 := by
      unfold Task.ran
      by_cases h : t.node = v
      · rw [if_pos h]
        split_ifs <;> simp
      · simp [h]
    simp only [total, List.map_cons, List.sum_cons, List.count_cons, beq_iff_eq] at ih ⊢
    omega

/-- No `fn_` runs twice. -/
theorem ran_nodup {s : State} {tr : List (State × Action)} (hw : Wired g)
    (hsmall : ∀ v, inDegree g v < 2 ^ 32) (h : Run (machine g n) tr s) :
    (log ranNode tr).Nodup := by
  refine List.nodup_iff_count_le_one.mpr fun v => ?_
  rw [ran_count h v]
  exact (ran_le v s.tasks).trans
    (List.nodup_iff_count_le_one.mp (inv_of_run hw hsmall h).nodup v)

/-- Each element of the list comes after all that lead to it. -/
def Topological (E : ℕ → ℕ → Prop) (l : List ℕ) : Prop :=
  ∀ before v rest, l = before ++ v :: rest → ∀ u, TransGen E u v → u ∈ before

theorem Topological.snoc {E : ℕ → ℕ → Prop} {l : List ℕ} (h : Topological E l) {v : ℕ}
    (hv : ∀ u, TransGen E u v → u ∈ l) : Topological E (l ++ [v]) := by
  intro before w rest heq u hu
  rcases List.eq_nil_or_concat rest with rfl | ⟨rest', x, rfl⟩
  · obtain ⟨rfl, hw⟩ := List.append_inj' heq rfl
    obtain rfl : v = w := List.head_eq_of_cons_eq hw
    exact hv u hu
  · rw [List.concat_eq_append, ← List.cons_append, ← List.append_assoc] at heq
    exact h before w rest' (List.append_inj' heq rfl).1 u hu

theorem ran_ordered {s : State} {tr : List (State × Action)} (hw : Wired g)
    (hsmall : ∀ v, inDegree g v < 2 ^ 32) (h : Run (machine g n) tr s) :
    Topological (Edge g) (log ranNode tr) := by
  induction h with
  | nil => exact fun before v rest heq => absurd heq.symm (by simp [log])
  | @snoc tr u w a prior last ih =>
    rw [log_snoc]
    cases ha : ranNode u a with
    | none => simpa using ih
    | some v =>
      rw [Option.toList_some]
      refine ih.snoc fun x hx => ?_
      obtain ⟨t, ht, hv⟩ : ∃ t ∈ u.tasks, t.node = v := by
        cases a with
        | task j =>
          obtain ⟨t, hj, hif⟩ := Option.bind_eq_some_iff.mp ha
          split_ifs at hif
          exact ⟨t, List.mem_of_getElem? hj, Option.some.inj hif⟩
        | seed | start | ret => cases ha
      obtain ⟨t', ht', hnode, hret⟩ := (inv_of_run hw hsmall prior).returned hx ht hv
      have hran : 0 < Task.ran x t' := by simp [Task.ran, hnode, hret]
      refine List.count_pos_iff.mp ?_
      rw [ran_count prior x]
      exact hran.trans_le (le_total ht')

/-- The node whose `fn_` a step of the pool runs. -/
def fnRun (p : TaskPool.Pool Counters Task) : TaskPool.Action → Option ℕ
  | .task j =>
    p.tasks[j]?.bind fun e => if e.1 ≠ .queued ∧ e.2.pc = .fn then some e.2.node else none
  | _ => none

theorem label_ran (p : TaskPool.Pool Counters Task) (a : TaskPool.Action) :
    (label p a).bind (ranNode (stateOf p)) = fnRun p a := by
  cases a with
  | task j =>
    cases hj : p.tasks[j]? with
    | none => simp [label, stateOf, ranNode, fnRun, hj]
    | some e =>
      obtain ⟨x, t⟩ := e
      have ht := getElem?_stateOf hj
      simp only [label, ht, fnRun, hj, Option.bind_some]
      cases x with
      | queued => simp [taskOf, ranNode, ht]
      | running => by_cases hpc : t.pc = .done <;> simp [taskOf, ranNode, ht, hpc]
      | done => by_cases hpc : t.pc = .done <;> simp [taskOf, ranNode, ht, hpc]
  | main | run | start | ret => rfl

/-- What `execute` has done when the code of these nodes has run, in this order. -/
structure Executed (g : Graph) (ran : List ℕ) (p : TaskPool.Pool Counters Task) : Prop where
  once : ran.Nodup
  ordered : Topological (Edge g) ran
  complete : p.phase = .after → ∀ v, v ∈ ran ↔ v < g.size ∧ ¬ Tainted (Edge g) v
  remaining : p.phase = .after →
    p.mem.remainingNodes = ({v | v < g.size ∧ Tainted (Edge g) v} : Set ℕ).ncard

/-- A run of the program is a run of the model of `execute`. -/
theorem program_run {tr : List (TaskPool.Pool Counters Task × TaskPool.Action)}
    (h : Run (TaskPool.machine (program g) n) tr p) :
    Run (machine g n) ((refinement g n).trace tr) (stateOf p) :=
  (refinement g n).run (fun e he => by cases he) (fun _ _ _ hp hs => entries_step hp hs) h

theorem executed_of_run (hw : Wired g) (hsmall : ∀ v, inDegree g v < 2 ^ 32)
    {tr : List (TaskPool.Pool Counters Task × TaskPool.Action)}
    (h : Run (TaskPool.machine (program g) n) tr p) : Executed g (log fnRun tr) p := by
  have hrun := program_run h
  have hlog : log ranNode ((refinement g n).trace tr) = log fnRun tr := by
    rw [Refinement.log_map]
    exact congrArg (log · tr) (funext fun p => funext fun a => label_ran p a)
  have hinv := inv_of_run hw hsmall hrun
  have hfin : p.phase = .after → Finished (stateOf p) := fun hp =>
    finished_of_returned hrun (by simp [stateOf, phaseOf, hp])
  rw [← hlog]
  exact
    { once := ran_nodup hw hsmall hrun
      ordered := ran_ordered hw hsmall hrun
      complete := fun hp v =>
        (ran_perm hrun (hfin hp)).mem_iff.trans (mem_nodes_iff hw hinv (hfin hp) v)
      remaining := fun hp => remaining_eq hw hinv (hfin hp) }

theorem length_le_of_reachable (hw : Wired g) (hsmall : ∀ v, inDegree g v < 2 ^ 32)
    (h : Reachable (TaskPool.machine (program g) n) p) : p.tasks.length ≤ g.size := by
  obtain ⟨tr, htr⟩ := h
  have hle := (inv_of_run hw hsmall (program_run htr)).length_le
  rwa [stateOf, List.length_map] at hle

section Scheduler
variable {σ ℓ ω : Type*} (E : Executor.View σ ℓ ω ℕ)

/-- The code of the nodes that ran while `execute` called the scheduler. -/
def ranOn (tr : List ((σ × TaskPool.Pool Counters Task) × Executor.Choice ℓ ω)) : List ℕ :=
  log (fun u c => (E.action u.1 c).bind (fnRun u.2)) tr

variable {E}

theorem executed_on [DecidableEq ω] {crew : Finset ω} {fits : ℕ → Prop}
    (hl : E.Lawful crew fits) (hf : ∀ m ≤ g.size, fits m) {ops : List BuildOp}
    (hb : build ops = some g) (hsmall : ∀ v, inDegree g v < 2 ^ 32)
    {tr : List ((σ × TaskPool.Pool Counters Task) × Executor.Choice ℓ ω)}
    {u : σ × TaskPool.Pool Counters Task} (h : Run (E.pooled (program g)) tr u) :
    Executed g (ranOn E tr) u.2 := by
  have hw := wired_of_build hb
  obtain ⟨-, hrun⟩ := hl.pooled (fun q hq => hf _ (length_le_of_reachable hw hsmall hq)) h
  rw [ranOn, ← Executor.View.log_trace]
  exact executed_of_run hw hsmall hrun

end Scheduler

/-- On each of the schedulers, with any number of workers, `execute` runs the code of no node
twice and that of a node after that of all its predecessors, direct and transitive; when it
returns, the nodes that have run are those on no cycle and behind none, and `remaining_nodes_`
counts the others. -/
theorem graph_executed {ω : Type*} [DecidableEq ω] [Fintype ω] {ops : List BuildOp}
    (hb : build ops = some g) (hsmall : ∀ v, inDegree g v < 2 ^ 32) :
    (∀ n tr u, Run ((MutexQueue.executor n ℕ).pooled (program g)) tr u →
        Executed g (ranOn (MutexQueue.executor n ℕ) tr) u.2) ∧
      (∀ n tr u, Run ((StealingDeques.executor n ℕ).pooled (program g)) tr u →
        Executed g (ranOn (StealingDeques.executor n ℕ) tr) u.2) ∧
      (g.size < 2 ^ 63 → ∀ (crew : List ω) (log2Ring : ℕ), 1 ≤ log2Ring → log2Ring ≤ 63 →
        ∀ tr u, Run ((LockFree.executor crew ℕ log2Ring).pooled (program g)) tr u →
          Executed g (ranOn (LockFree.executor crew ℕ log2Ring) tr) u.2) := by
  refine ⟨fun n tr u h => ?_, fun n tr u h => ?_, fun hsize crew log2Ring hlo hhi tr u h => ?_⟩
  · exact executed_on (MutexQueue.lawful n) (fun _ _ => trivial) hb hsmall h
  · exact executed_on (StealingDeques.lawful n) (fun _ _ => trivial) hb hsmall h
  · exact executed_on (LockFree.lawful hlo hhi crew) (fun _ hm => hm.trans_lt hsize) hb hsmall h

/-- Both nodes of `chainOps` on one worker of `MutexQueueScheduler`: the seeding loop, the start
of `run`, node `0` with the submission of node `1`, node `1`, the return. -/
def mutexSchedule : List (Executor.Choice (MutexQueue.Action Unit ℕ) ℕ) := List.flatten
  [[.own (.submit () 0)], List.replicate 3 (.own (.outside () (some 0))),
    [.own (.outside () none), .main, .own (.run 1)], List.replicate 3 (.own .runner),
    List.replicate 3 (.own (.worker 0 none)), List.replicate 3 (.task 0), [.own (.spawn 0 1)],
    List.replicate 4 (.own (.worker 0 none)), List.replicate 2 (.task 0), [.own (.finish 0)],
    List.replicate 4 (.own (.worker 0 none)), List.replicate 3 (.task 0), [.own (.finish 0)],
    List.replicate 5 (.own (.worker 0 none)), List.replicate 5 (.own .runner),
    List.replicate 3 (.own (.worker 0 none)), List.replicate 2 (.own .runner)]

/-- The same on one worker of `WorkStealingScheduler`. -/
def stealingSchedule : List (Executor.Choice (StealingDeques.Action Unit ℕ) ℕ) := List.flatten
  [[.own (.submit (.outside ()) 0)], List.replicate 4 (.own (.call (.outside ()))),
    [.main, .own (.run 1)], List.replicate 15 (.own .runner),
    List.replicate 9 (.own (.worker 0 0)), List.replicate 3 (.task 0),
    [.own (.submit (.worker 0) 1)], List.replicate 8 (.own (.call (.worker 0))),
    List.replicate 2 (.task 0), [.own (.finish 0)], List.replicate 8 (.own (.worker 0 0)),
    List.replicate 3 (.task 0), [.own (.finish 0)], List.replicate 5 (.own .runner)]

/-- The same on one worker of `LockFreeQueueScheduler` with a ring of two slots. -/
def ringSchedule : List (Executor.Choice (LockFree.Action Unit Unit ℕ) Unit) := List.flatten
  [[.own (.submit () 0)], List.replicate 4 (.own (.access (.outside ()) false)),
    [.main, .own (.run () [()])], List.replicate 2 (.own .runner),
    List.replicate 5 (.own (.access (.worker ()) false)), [.own (.worker ())],
    List.replicate 3 (.task ()), [.own (.spawn () 1)],
    List.replicate 4 (.own (.access (.worker ()) false)), [.own (.worker ())],
    List.replicate 2 (.task ()), [.own (.finish ()), .own (.worker ())],
    List.replicate 5 (.own (.access (.worker ()) false)), [.own (.worker ())],
    List.replicate 3 (.task ()), [.own (.finish ()), .own (.worker ())],
    List.replicate 2 (.own .runner), List.replicate 2 (.own (.access (.worker ()) false)),
    List.replicate 2 (.own (.worker ())), List.replicate 2 (.own .runner)]

theorem graph_executed_chain : ∃ g, build chainOps = some g ∧
    (∃ u, exec ((MutexQueue.executor 1 ℕ).pooled (program g))
        ((MutexQueue.executor 1 ℕ).pooled (program g)).init mutexSchedule = some u ∧
      u.2.phase = .after ∧
      Executed g (ranOn (MutexQueue.executor 1 ℕ)
        (record ((MutexQueue.executor 1 ℕ).pooled (program g))
          ((MutexQueue.executor 1 ℕ).pooled (program g)).init mutexSchedule)) u.2) ∧
    (∃ u, exec ((StealingDeques.executor 1 ℕ).pooled (program g))
        ((StealingDeques.executor 1 ℕ).pooled (program g)).init stealingSchedule = some u ∧
      u.2.phase = .after ∧
      Executed g (ranOn (StealingDeques.executor 1 ℕ)
        (record ((StealingDeques.executor 1 ℕ).pooled (program g))
          ((StealingDeques.executor 1 ℕ).pooled (program g)).init stealingSchedule)) u.2) ∧
    ∃ u, exec ((LockFree.executor [()] ℕ 1).pooled (program g))
        ((LockFree.executor [()] ℕ 1).pooled (program g)).init ringSchedule = some u ∧
      u.2.phase = .after ∧
      Executed g (ranOn (LockFree.executor [()] ℕ 1)
        (record ((LockFree.executor [()] ℕ 1).pooled (program g))
          ((LockFree.executor [()] ℕ 1).pooled (program g)).init ringSchedule)) u.2 := by
  have hen : (build chainOps).any fun g =>
      decide (∑ u ∈ Finset.range g.size, (g.successors u).length < 2 ^ 32 ∧ g.size < 2 ^ 63) := by
    decide
  have hmutex : (build chainOps).all fun g =>
      (exec ((MutexQueue.executor 1 ℕ).pooled (program g))
        ((MutexQueue.executor 1 ℕ).pooled (program g)).init mutexSchedule).any fun u =>
          decide (u.2.phase = .after) := by decide +kernel
  have hsteal : (build chainOps).all fun g =>
      (exec ((StealingDeques.executor 1 ℕ).pooled (program g))
        ((StealingDeques.executor 1 ℕ).pooled (program g)).init stealingSchedule).any fun u =>
          decide (u.2.phase = .after) := by decide +kernel
  have hring : (build chainOps).all fun g =>
      (exec ((LockFree.executor [()] ℕ 1).pooled (program g))
        ((LockFree.executor [()] ℕ 1).pooled (program g)).init ringSchedule).any fun u =>
          decide (u.2.phase = .after) := by decide +kernel
  obtain ⟨g, hg, hdec⟩ := (Option.any_eq_true _ _).mp hen
  obtain ⟨hlen, hsize⟩ := of_decide_eq_true hdec
  rw [hg] at hmutex hsteal hring
  have hsmall : ∀ v, inDegree g v < 2 ^ 32 := fun v => (inDegree_le g v).trans_lt hlen
  obtain ⟨u, hu, hend⟩ := (Option.any_eq_true _ _).mp hmutex
  obtain ⟨v, hv, hend'⟩ := (Option.any_eq_true _ _).mp hsteal
  obtain ⟨w, hw, hend''⟩ := (Option.any_eq_true _ _).mp hring
  obtain ⟨hall, hall', hall''⟩ := graph_executed (ω := Unit) hg hsmall
  exact ⟨g, hg, ⟨u, hu, of_decide_eq_true hend, hall 1 _ u (exec_steps hu)⟩,
    ⟨v, hv, of_decide_eq_true hend', hall' 1 _ v (exec_steps hv)⟩,
    ⟨w, hw, of_decide_eq_true hend'', hall'' hsize [()] 1 le_rfl (by decide) _ w (exec_steps hw)⟩⟩

end TaskScheduler.Dag
