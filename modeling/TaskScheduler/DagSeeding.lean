import TaskScheduler.DagCompletion

/-!
# Root seeding under a running scheduler

`execute` on a scheduler that may start a task at any moment from its submission on. The seeding
loop then reads counters that tasks submitted before are counting down.
-/
namespace TaskScheduler.Dag
open Transition Relation Precedence

/-- `pick` is the node whose counter the seeding loop has read as zero and that it has not yet
submitted. -/
structure Eager where
  state : State
  pick : Option ℕ

inductive EagerAction
  | read
  | submit
  | start (j : ℕ)
  | task (j : ℕ)
  | ret

/-- One step of the seeding loop, of the scheduler, or of a task. -/
def eagerStep (g : Graph) (s : Eager) : EagerAction → Option Eager
  | .read =>
    match s.state.phase, s.pick with
    | .seeding i, none =>
      if i < g.size then
        some
          { state := { s.state with phase := .seeding (i + 1) }
            pick := if s.state.depsRemaining i = 0 then some i else none }
      else some { s with state := { s.state with phase := .running } }
    | _, _ => none
  | .submit => s.pick.map fun v => { state := submitNode s.state v, pick := none }
  | .start j =>
    s.state.tasks[j]?.bind fun t =>
      if t.pc = .queued then some { s with state := s.state.setPc j t .fn } else none
  | .task j =>
    (s.state.tasks[j]?.bind (taskStep g s.state j)).map fun u => { s with state := u }
  | .ret =>
    if s.state.phase = .running ∧ ∀ t ∈ s.state.tasks, t.pc = .done then
      some { s with state := { s.state with phase := .returned } }
    else none

def eager (g : Graph) : Machine Eager EagerAction where
  init := { state := (machine g 0).init, pick := none }
  step := eagerStep g

/-- The node that the seeding loop submits with the step. -/
def root (s : Eager) : EagerAction → Option ℕ
  | .submit => s.pick
  | _ => none

/-- The node whose `fn_` the step runs. -/
def eagerRan (s : Eager) : EagerAction → Option ℕ
  | .task j => ranNode s.state (.task j)
  | _ => none

/-- The step is a read of the seeding loop that finds the counter of a node with a `depends_on`
edge at zero. -/
def premature (g : Graph) (s : Eager) : EagerAction → Bool
  | .read =>
    match s.state.phase with
    | .seeding i =>
      decide (s.pick = none ∧ i < g.size ∧ s.state.depsRemaining i = 0 ∧ inDegree g i ≠ 0)
    | _ => false
  | _ => false

/-- The nodes without a `depends_on` edge among the first `n`. -/
def rootsBelow (g : Graph) (n : ℕ) : List ℕ := (List.range n).filter fun v => inDegree g v = 0

/-- The claim that the seeding loop has on a node. -/
def Eager.claim (s : Eager) (v : ℕ) : ℕ := if s.pick = some v then 1 else 0

structure Seeded (g : Graph) (s : Eager) : Prop where
  core : Core g s.claim s.state
  bound : ∀ i, s.state.phase = .seeding i → i ≤ g.size
  pick : ∀ v, s.pick = some v → v < g.size ∧ inDegree g v = 0 ∧ ∃ i, s.state.phase = .seeding i

variable {g : Graph} {s s' : Eager} {a : EagerAction}

theorem seeded_init (hw : Wired g) : Seeded g (eager g).init where
  core := (inv_init hw 0).core
  bound i hi := ((inv_init hw 0).seeding i hi).1
  pick v hv := by cases hv

/-- A node without a `depends_on` edge is never counted down. -/
theorem Core.deps_zero {extra : ℕ → ℕ} {u : State} (h : Core g extra u) {v : ℕ}
    (hv : inDegree g v = 0) : u.depsRemaining v = 0 := by
  have hle := decremented_le h.nodup h.nodes v
  have hnone : decremented g u.tasks v = 0 := by omega
  rw [h.deps v, hv, hnone]
  rfl

theorem Seeded.read (h : Seeded g s) {i : ℕ} (hp : s.state.phase = .seeding i)
    (hn : s.pick = none) (hi : i < g.size)
    (hmature : s.state.depsRemaining i = 0 → inDegree g i = 0) :
    Seeded g
      { state := { s.state with phase := .seeding (i + 1) }
        pick := if s.state.depsRemaining i = 0 then some i else none } := by
  have hzero : s.state.depsRemaining i = 0 ↔ inDegree g i = 0 :=
    ⟨hmature, fun h0 => h.core.deps_zero h0⟩
  refine ⟨⟨h.core.deps, fun v hv => ?_, h.core.nodes, h.core.pcs, h.core.ordered,
    h.core.remaining⟩, fun k hk => ?_, fun v hv => ?_⟩
  · have hc := h.core.claimed v hv
    simp only [Eager.claim, hn, reduceCtorEq, if_false, Nat.add_zero, Due, hp, seeded] at hc
    simp only [Eager.claim, hc, Due, seeded, hzero]
    by_cases h0 : inDegree g v = 0
    · rcases Nat.lt_trichotomy v i with hlt | rfl | hgt
      · have hne : i ≠ v := hlt.ne'
        by_cases hi0 : inDegree g i = 0 <;> simp [h0, hi0, hne, hlt, Nat.lt_succ_of_lt hlt]
      · simp [h0]
      · have h1 : ¬ v < i := by omega
        have h2 : ¬ v < i + 1 := by omega
        by_cases hi0 : inDegree g i = 0 <;> simp [h0, hi0, h1, h2, hgt.ne]
    · have hne : ¬ (inDegree g i = 0 ∧ i = v) := by
        rintro ⟨hi0, rfl⟩
        exact h0 hi0
      by_cases hi0 : inDegree g i = 0
      · have hiv : i ≠ v := fun he => hne ⟨hi0, he⟩
        simp [h0, hi0, hiv]
      · simp [h0, hi0]
  · obtain rfl : i + 1 = k := by simpa using hk
    exact hi
  · have hv' : (if s.state.depsRemaining i = 0 then some i else none) = some v := hv
    split_ifs at hv' with hd
    cases hv'
    exact ⟨hi, hzero.mp hd, i + 1, rfl⟩

theorem Seeded.submit (h : Seeded g s) (hw : Wired g) {v : ℕ} (hv : s.pick = some v) :
    Seeded g { state := submitNode s.state v, pick := none } := by
  obtain ⟨hlt, h0, i, hp⟩ := h.pick v hv
  have hdec : ∀ w, decremented g (s.state.tasks ++ [⟨v, .queued⟩]) w =
      decremented g s.state.tasks w := by
    intro w
    rw [decremented, total_append, made_queued]
    rfl
  refine ⟨⟨fun w => ?_, fun w hw' => ?_, fun x hx => ?_, fun x hx => ?_,
    h.core.ordered.append fun u hu => absurd h0 (inDegree_pos hw hu).ne', ?_⟩, h.bound,
    fun w hw' => by cases hw'⟩
  · exact (h.core.deps w).trans (by rw [← hdec w]; rfl)
  · have hc := h.core.claimed w hw'
    have hsum := total_append (Task.claims g w) s.state.tasks ⟨v, .queued⟩
    rw [claims_queued] at hsum
    simp only [Eager.claim, hv, Option.some.injEq] at hc
    have hdue := due_congr s.state (submitNode s.state v) hdec rfl w
    simp only [Eager.claim, reduceCtorEq, if_false, Nat.add_zero, hdue, ← hc]
    exact hsum
  · rcases List.mem_append.mp hx with hx | hx
    · exact h.core.nodes x hx
    · rw [List.mem_singleton.mp hx]
      exact hlt
  · rcases List.mem_append.mp hx with hx | hx
    · exact h.core.pcs x hx
    · rw [List.mem_singleton.mp hx]
      trivial
  · have hrem := h.core.remaining
    have hqueued : Task.finished ⟨v, .queued⟩ = 0 := by simp [Task.finished]
    simp only [submitNode, total_append]
    omega

/-- The change that a step makes. -/
inductive EagerEffect (g : Graph) (s : Eager) : EagerAction → Eager → Prop
  | read {i : ℕ} (hp : s.state.phase = .seeding i) (hn : s.pick = none) (hi : i < g.size) :
      EagerEffect g s .read
        { state := { s.state with phase := .seeding (i + 1) }
          pick := if s.state.depsRemaining i = 0 then some i else none }
  | run {i : ℕ} (hp : s.state.phase = .seeding i) (hn : s.pick = none) (hi : g.size ≤ i) :
      EagerEffect g s .read { state := { s.state with phase := .running }, pick := none }
  | submit {v : ℕ} (hv : s.pick = some v) :
      EagerEffect g s .submit { state := submitNode s.state v, pick := none }
  | start {j : ℕ} {t : Task} (hj : s.state.tasks[j]? = some t) (hq : t.pc = .queued) :
      EagerEffect g s (.start j) { s with state := s.state.setPc j t .fn }
  | task {j : ℕ} {t : Task} {u : State} (hj : s.state.tasks[j]? = some t)
      (hu : taskStep g s.state j t = some u) : EagerEffect g s (.task j) { s with state := u }
  | ret (hp : s.state.phase = .running) (hd : ∀ t ∈ s.state.tasks, t.pc = .done) :
      EagerEffect g s .ret { s with state := { s.state with phase := .returned } }

theorem eagerStep_effect (hs : eagerStep g s a = some s') : EagerEffect g s a s' := by
  cases a with
  | read =>
    cases hp : s.state.phase with
    | seeding i =>
      cases hn : s.pick with
      | none =>
        simp only [eagerStep, hp, hn] at hs
        by_cases hi : i < g.size
        · rw [if_pos hi] at hs
          cases hs
          exact .read hp hn hi
        · rw [if_neg hi] at hs
          cases hs
          exact .run hp hn (not_lt.mp hi)
      | some v => simp [eagerStep, hp, hn] at hs
    | _ => simp [eagerStep, hp] at hs
  | submit =>
    obtain ⟨v, hv, rfl⟩ := Option.map_eq_some_iff.mp hs
    exact .submit hv
  | start j =>
    obtain ⟨t, hj, ht⟩ := Option.bind_eq_some_iff.mp hs
    split_ifs at ht with hq
    cases ht
    exact .start hj hq
  | task j =>
    obtain ⟨u, hu, rfl⟩ := Option.map_eq_some_iff.mp hs
    obtain ⟨t, hj, ht⟩ := Option.bind_eq_some_iff.mp hu
    exact .task hj ht
  | ret =>
    simp only [eagerStep] at hs
    split_ifs at hs with hr
    cases hs
    exact .ret hr.1 hr.2

/-- The loop ends with every node passed. -/
theorem Seeded.setPhase (h : Seeded g s) {p : Phase} (hp : seeded g p = seeded g s.state.phase)
    (hns : ∀ i, p ≠ .seeding i) (hn : s.pick = none) :
    Seeded g { state := { s.state with phase := p }, pick := none } := by
  refine ⟨⟨h.core.deps, fun v hv => ?_, h.core.nodes, h.core.pcs, h.core.ordered,
    h.core.remaining⟩, fun i hi => absurd hi (hns i), fun v hv => by cases hv⟩
  have hc := h.core.claimed v hv
  simp only [Eager.claim, hn] at hc
  refine hc.trans (if_congr ?_ rfl rfl)
  simp only [Due, hp]

theorem mature {i : ℕ} (hC : premature g s .read = false) (hp : s.state.phase = .seeding i)
    (hn : s.pick = none) (hi : i < g.size) (hd : s.state.depsRemaining i = 0) :
    inDegree g i = 0 := by
  by_contra h0
  simp only [premature, hp, decide_eq_false_iff_not] at hC
  exact hC ⟨hn, hi, hd, h0⟩

theorem seeded_step (hw : Wired g) (hsmall : ∀ v, inDegree g v ≤ 2 ^ 32) (h : Seeded g s)
    (hC : premature g s a = false) (he : EagerEffect g s a s') : Seeded g s' := by
  cases he with
  | read hp hn hi =>
    exact h.read hp hn hi fun hd => mature hC hp hn hi hd
  | @run i hp hn hi =>
    refine h.setPhase ?_ (by simp) hn
    rw [hp]
    exact le_antisymm hi (h.bound i hp)
  | submit hv => exact h.submit hw hv
  | start hj hq => exact ⟨h.core.start hj hq, h.bound, h.pick⟩
  | task hj hu =>
    have hphase := taskStep_phase hu
    refine ⟨taskStep_core h.core hw hsmall hj hu, fun i hi => h.bound i (hphase ▸ hi),
      fun v hv => ?_⟩
    obtain ⟨hlt, h0, i, hp⟩ := h.pick v hv
    exact ⟨hlt, h0, i, hphase.trans hp⟩
  | ret hp hd =>
    have hn : s.pick = none := by
      cases hv : s.pick with
      | none => rfl
      | some v =>
        obtain ⟨-, -, i, hi⟩ := h.pick v hv
        rw [hp] at hi
        cases hi
    have hset := h.setPhase (p := .returned) (by rw [hp]; rfl) (by simp) hn
    rwa [← hn] at hset

/-- The nodes submitted by the loop and the one that it is about to submit are the nodes without
a `depends_on` edge that it has passed. -/
theorem roots_step (h : Seeded g s) (hC : premature g s a = false) (he : EagerEffect g s a s')
    {l : List ℕ} (hl : l ++ s.pick.toList = rootsBelow g (seeded g s.state.phase)) :
    l ++ (root s a).toList ++ s'.pick.toList = rootsBelow g (seeded g s'.state.phase) := by
  cases he with
  | @read i hp hn hi =>
    have hzero : s.state.depsRemaining i = 0 ↔ inDegree g i = 0 :=
      ⟨mature hC hp hn hi, h.core.deps_zero⟩
    rw [hn, hp] at hl
    simp only [Option.toList_none, List.append_nil, seeded] at hl
    simp only [root, Option.toList_none, List.append_nil, hl, seeded, rootsBelow,
      List.range_succ, List.filter_append, hzero]
    by_cases h0 : inDegree g i = 0 <;> simp [h0]
  | @run i hp hn hi =>
    have hend : i = g.size := le_antisymm (h.bound i hp) hi
    rw [hn, hp] at hl
    simpa [root, seeded, hend] using hl
  | submit hv =>
    rw [hv] at hl
    simpa [root, hv, submitNode] using hl
  | start hj hq => simpa [root, State.setPc] using hl
  | task hj hu => simpa [root, taskStep_phase hu] using hl
  | ret hp hd =>
    rw [hp] at hl
    simpa [root, seeded] using hl

theorem eagerRan_step (he : EagerEffect g s a s') (v : ℕ) :
    total (Task.ran v) s'.state.tasks = total (Task.ran v) s.state.tasks +
      (eagerRan s a).toList.count v := by
  cases he with
  | submit hv => exact submitNode_ran _ v
  | start hj hq => exact set_ran hj (by rw [hq]; rfl)
  | task hj hu => exact taskStep_ran hj hu v
  | _ => rfl

/-- An upper bound for the steps taken so far. -/
def Eager.spent (g : Graph) (s : Eager) : ℕ :=
  (match s.state.phase with
    | .seeding i => if s.pick = none then 2 * i + 1 else 2 * i
    | .running => 2 * g.size + 2
    | .returned => 2 * g.size + 3) + total (Task.spent g) s.state.tasks

def eagerBound (g : Graph) : ℕ :=
  2 * g.size + 3 + ∑ u ∈ Finset.range g.size, (4 + 2 * (g.successors u).length)

theorem Seeded.spent_le (h : Seeded g s) : s.spent g ≤ eagerBound g := by
  have htasks := h.core.spent_le
  cases hp : s.state.phase with
  | seeding i =>
    have hi := h.bound i hp
    simp only [Eager.spent, hp, eagerBound]
    split_ifs <;> omega
  | _ =>
    simp only [Eager.spent, hp, eagerBound]
    omega

theorem eager_spent (h : Seeded g s) (he : EagerEffect g s a s') :
    s.spent g + 1 ≤ s'.spent g := by
  cases he with
  | read hp hn hi =>
    simp only [Eager.spent, hp, hn, if_true]
    split_ifs <;> omega
  | run hp hn hi =>
    have hle := h.bound _ hp
    simp only [Eager.spent, hp, hn, if_true]
    omega
  | submit hv =>
    obtain ⟨-, -, i, hp⟩ := h.pick _ hv
    simp only [Eager.spent, hp, hv, submitNode, total_append, if_true, reduceCtorEq, if_false]
    omega
  | @start j t hj hq =>
    have hset := setPc_spent (g := g) hj .fn (by simp [Task.spent, hq])
    have hphase : (s.state.setPc j t .fn).phase = s.state.phase := rfl
    simp only [Eager.spent, hphase]
    omega
  | @task j t u hj hu =>
    have hset := taskStep_spent hj (h.core.pcs t (List.mem_of_getElem? hj)) hu
    simp only [Eager.spent, taskStep_phase hu]
    omega
  | ret hp hd =>
    simp only [Eager.spent, hp]
    omega

/-- As long as `execute` has not returned some step is possible. -/
theorem Seeded.progress (h : Seeded g s) (hr : s.state.phase ≠ .returned) :
    ∃ a s', eagerStep g s a = some s' := by
  cases hv : s.pick with
  | some v => exact ⟨.submit, _, congrArg (Option.map _) hv⟩
  | none =>
    cases hp : s.state.phase with
    | returned => exact absurd hp hr
    | seeding i =>
      refine ⟨.read, ?_⟩
      simp only [eagerStep, hp, hv]
      by_cases hi : i < g.size
      · exact ⟨_, if_pos hi⟩
      · exact ⟨_, if_neg hi⟩
    | running =>
      by_cases hdone : ∀ t ∈ s.state.tasks, t.pc = .done
      · exact ⟨.ret, _, if_pos ⟨hp, hdone⟩⟩
      · push Not at hdone
        obtain ⟨t, ht, hnd⟩ := hdone
        obtain ⟨j, hj⟩ := List.getElem?_of_mem ht
        by_cases hq : t.pc = .queued
        · refine ⟨.start j, Option.isSome_iff_exists.mp ?_⟩
          simp [eagerStep, hj, hq]
        · have hb : t.pc.isBusy := by cases hpc : t.pc <;> simp_all [TaskPc.isBusy]
          refine ⟨.task j, Option.isSome_iff_exists.mp ?_⟩
          simp only [eagerStep, hj, Option.bind_some, Option.isSome_map]
          exact taskStep_isSome (h.core.pcs t ht) hb

/-- What holds along a run without a premature read. -/
structure EagerRun (g : Graph) (tr : List (Eager × EagerAction)) (s : Eager) : Prop where
  ok : Seeded g s
  roots : log root tr ++ s.pick.toList = rootsBelow g (seeded g s.state.phase)
  length : tr.length + 1 ≤ s.spent g

theorem eagerRun_of_run (hw : Wired g) (hsmall : ∀ v, inDegree g v ≤ 2 ^ 32)
    {tr : List (Eager × EagerAction)} (h : Run (eager g) tr s)
    (hC : ∀ e ∈ tr, premature g e.1 e.2 = false) : EagerRun g tr s := by
  refine Run.history_of (I := EagerRun g) (C := fun s a => premature g s a = false)
    ⟨seeded_init hw, rfl, le_rfl⟩ ?_ h hC
  intro tr u a v ih hC hs
  have he := eagerStep_effect hs
  refine ⟨seeded_step hw hsmall ih.ok hC he, ?_, ?_⟩
  · rw [log_snoc]
    exact roots_step ih.ok hC he ih.roots
  · have hlen := ih.length
    have hspent := eager_spent ih.ok he
    rw [List.length_append, List.length_singleton]
    omega

end TaskScheduler.Dag
