import TaskScheduler.DagOrder
import TaskScheduler.Precedence

/-!
# What execute completes

Every run is finite and goes on until nothing is outstanding, and the nodes that have run
then are those that no cycle leads to.
-/
namespace TaskScheduler.Dag
open Transition Relation Precedence

variable {g : Graph} {s s' : State}

/-- An upper bound for the steps that the task has taken. -/
def Task.spent (g : Graph) (t : Task) : ℕ :=
  match t.pc with
  | .queued => 0
  | .fn => 1
  | .succ k => 2 + 2 * k
  | .submit k => 3 + 2 * k
  | .finish => 3 + 2 * (g.successors t.node).length
  | .done => 4 + 2 * (g.successors t.node).length

def Phase.spent (g : Graph) : Phase → ℕ
  | .seeding i => i
  | .running => g.size + 1
  | .returned => g.size + 2

/-- No run of `execute` has more steps. -/
def stepBound (g : Graph) : ℕ :=
  g.size + 2 + ∑ u ∈ Finset.range g.size, (4 + 2 * (g.successors u).length)

theorem total_le {tasks : List Task} (hn : (tasks.map Task.node).Nodup)
    (hnodes : ∀ t ∈ tasks, t.node < g.size) {w : Task → ℕ} {f : ℕ → ℕ}
    (hw : ∀ t ∈ tasks, w t ≤ f t.node) : total w tasks ≤ ∑ u ∈ Finset.range g.size, f u := by
  calc total w tasks ≤ ((tasks.map Task.node).map f).sum := by
        rw [List.map_map]
        exact List.sum_le_sum hw
    _ = ∑ u ∈ (tasks.map Task.node).toFinset, f u := (List.sum_toFinset f hn).symm
    _ ≤ ∑ u ∈ Finset.range g.size, f u := by
        refine Finset.sum_le_sum_of_subset fun u hu => ?_
        obtain ⟨t, ht, rfl⟩ := List.mem_map.mp (List.mem_toFinset.mp hu)
        exact Finset.mem_range.mpr (hnodes t ht)

/-- At most as many tasks as nodes are submitted. -/
theorem Inv.length_le (h : Inv g s) : s.tasks.length ≤ g.size := by
  have hle := total_le (g := g) (w := fun _ => 1) (f := fun _ => 1) h.nodup h.nodes
    fun _ _ => le_rfl
  simpa [total] using hle

theorem Core.spent_le {extra : ℕ → ℕ} (h : Core g extra s) :
    total (Task.spent g) s.tasks ≤
      ∑ u ∈ Finset.range g.size, (4 + 2 * (g.successors u).length) := by
  refine total_le (f := fun u => 4 + 2 * (g.successors u).length) h.nodup h.nodes fun t ht => ?_
  have hok := h.pcs t ht
  cases hpc : t.pc <;> simp only [Task.spent, hpc] <;> rw [hpc] at hok <;>
    simp only [TaskPc.Ok] at hok <;> omega

theorem Inv.spent_le (h : Inv g s) :
    s.phase.spent g + total (Task.spent g) s.tasks ≤ stepBound g := by
  have hphase : s.phase.spent g ≤ g.size + 2 := by
    cases hp : s.phase with
    | seeding i =>
      have := (h.seeding i hp).1
      simp only [Phase.spent]
      omega
    | _ => simp [Phase.spent]
  have htasks := h.core.spent_le
  unfold stepBound
  omega

theorem setPc_spent {j : ℕ} {t : Task} (hj : s.tasks[j]? = some t) (pc : TaskPc)
    (hlt : t.spent g < Task.spent g { t with pc := pc }) :
    total (Task.spent g) s.tasks + 1 ≤ total (Task.spent g) (s.setPc j t pc).tasks := by
  have hset := total_set (Task.spent g) hj { t with pc := pc }
  simp only [State.setPc]
  omega

theorem taskStep_spent {j : ℕ} {t : Task} (hj : s.tasks[j]? = some t)
    (hok : t.pc.Ok (g.successors t.node).length) (hs : taskStep g s j t = some s') :
    total (Task.spent g) s.tasks + 1 ≤ total (Task.spent g) s'.tasks := by
  cases hpc : t.pc with
  | fn =>
    simp only [taskStep, hpc, Option.some.injEq] at hs
    subst hs
    exact setPc_spent hj _ (by simp [Task.spent, hpc])
  | succ k =>
    cases hv : (g.successors t.node)[k]? with
    | some v =>
      simp only [taskStep, hpc, hv, Option.some.injEq] at hs
      subst hs
      refine setPc_spent (s := { s with depsRemaining := _ }) hj _ ?_
      split_ifs <;> simp only [Task.spent, hpc] <;> omega
    | none =>
      simp only [taskStep, hpc, hv, Option.some.injEq] at hs
      subst hs
      rw [hpc] at hok
      simp only [TaskPc.Ok] at hok
      exact setPc_spent hj _ (by simp only [Task.spent, hpc]; omega)
  | submit k =>
    simp only [taskStep, hpc, Option.map_eq_some_iff] at hs
    obtain ⟨v, hv, rfl⟩ := hs
    have hset := setPc_spent (g := g) hj (.succ (k + 1))
      (by simp only [Task.spent, hpc]; omega)
    simp only [submitNode, total_append]
    omega
  | finish =>
    simp only [taskStep, hpc, Option.some.injEq] at hs
    subst hs
    exact setPc_spent (s := { s with remainingNodes := _ }) hj _
      (by simp only [Task.spent, hpc]; omega)
  | queued => simp [taskStep, hpc] at hs
  | done => simp [taskStep, hpc] at hs

/-- Every step spends at least one unit. -/
theorem step_spent {n : ℕ} {a : Action} (h : Inv g s) (hs : step g n s a = some s') :
    s.phase.spent g + total (Task.spent g) s.tasks + 1 ≤
      s'.phase.spent g + total (Task.spent g) s'.tasks := by
  cases a with
  | seed =>
    cases hp : s.phase with
    | seeding i =>
      simp only [step, hp] at hs
      by_cases hi : i < g.size
      · rw [if_pos hi] at hs
        rw [← Option.some.inj hs]
        split_ifs
        · simp only [submitNode, total_append, Phase.spent]
          omega
        · simp only [Phase.spent]
          omega
      · rw [if_neg hi] at hs
        rw [← Option.some.inj hs]
        have := (h.seeding i hp).1
        simp only [Phase.spent]
        omega
    | running => simp [step, hp] at hs
    | returned => simp [step, hp] at hs
  | start j =>
    cases hp : s.phase with
    | running =>
      cases hj : s.tasks[j]? with
      | none => simp [step, hp, hj] at hs
      | some t =>
        simp only [step, hp, hj] at hs
        split_ifs at hs with hq
        cases hs
        have hset := setPc_spent (g := g) hj .fn (by simp [Task.spent, hq.1])
        have hphase : (s.setPc j t .fn).phase = .running := hp
        rw [hphase]
        omega
    | seeding i => simp [step, hp] at hs
    | returned => simp [step, hp] at hs
  | task j =>
    obtain ⟨t, hj, ht⟩ := Option.bind_eq_some_iff.mp hs
    have hle := taskStep_spent hj (h.pcs t (List.mem_of_getElem? hj)) ht
    rw [taskStep_phase ht]
    omega
  | ret =>
    simp only [step] at hs
    split_ifs at hs with hr
    cases hs
    simp only [Phase.spent, hr.1]
    omega

/-- No run is longer than `stepBound`. -/
theorem length_le_stepBound (hw : Wired g) (hsmall : ∀ v, inDegree g v < 2 ^ 32) {n : ℕ}
    {tr : List (State × Action)} (h : Run (machine g n) tr s) : tr.length ≤ stepBound g := by
  obtain ⟨hinv, hle⟩ : Inv g s ∧
      tr.length ≤ s.phase.spent g + total (Task.spent g) s.tasks := by
    refine Run.history (I := fun tr s => Inv g s ∧
      tr.length ≤ s.phase.spent g + total (Task.spent g) s.tasks) ⟨inv_init hw n, by simp⟩ ?_ h
    rintro tr u a v ⟨hu, ih⟩ hs
    refine ⟨inv_step hw hsmall n u a v hu hs, ?_⟩
    have hspent := step_spent hu hs
    rw [List.length_append, List.length_singleton]
    omega
  exact hle.trans hinv.spent_le

/-- A busy task has a next access. -/
theorem taskStep_isSome {j : ℕ} {t : Task} (hok : t.pc.Ok (g.successors t.node).length)
    (hb : t.pc.isBusy) : (taskStep g s j t).isSome := by
  cases hpc : t.pc with
  | fn => simp [taskStep, hpc]
  | succ k => cases hv : (g.successors t.node)[k]? <;> simp [taskStep, hpc, hv]
  | submit k =>
    rw [hpc] at hok
    simp only [TaskPc.Ok] at hok
    simp [taskStep, hpc, hok]
  | finish => simp [taskStep, hpc]
  | queued => simp [hpc, TaskPc.isBusy] at hb
  | done => simp [hpc, TaskPc.isBusy] at hb

/-- As long as `execute` has not returned some step is possible. -/
theorem Inv.progress (h : Inv g s) {n : ℕ} (hn : 0 < n) (hr : s.phase ≠ .returned) :
    ∃ a s', step g n s a = some s' := by
  cases hp : s.phase with
  | returned => exact absurd hp hr
  | seeding i =>
    refine ⟨.seed, ?_⟩
    simp only [step, hp]
    by_cases hi : i < g.size
    · exact ⟨_, if_pos hi⟩
    · exact ⟨_, if_neg hi⟩
  | running =>
    by_cases hdone : ∀ t ∈ s.tasks, t.pc = .done
    · exact ⟨.ret, _, if_pos ⟨hp, hdone⟩⟩
    · by_cases hbusy : ∃ t ∈ s.tasks, t.pc.isBusy
      · obtain ⟨t, ht, hb⟩ := hbusy
        obtain ⟨j, hj⟩ := List.getElem?_of_mem ht
        refine ⟨.task j, Option.isSome_iff_exists.mp ?_⟩
        simp only [step, hj, Option.bind_some]
        exact taskStep_isSome (h.pcs t ht) hb
      · push Not at hdone hbusy
        obtain ⟨t, ht, hnd⟩ := hdone
        obtain ⟨j, hj⟩ := List.getElem?_of_mem ht
        have hcount : s.tasks.countP (·.pc.isBusy) = 0 :=
          List.countP_eq_zero.mpr fun x hx => hbusy x hx
        have hq : t.pc = .queued := by
          have hb := hbusy t ht
          cases hpc : t.pc <;> simp_all [TaskPc.isBusy]
        refine ⟨.start j, ?_⟩
        simp only [step, hp, hj]
        exact ⟨_, if_pos ⟨hq, by omega⟩⟩

/-- Nothing is outstanding any more. -/
structure Finished (s : State) : Prop where
  seeded : ∀ i, s.phase ≠ .seeding i
  done : ∀ t ∈ s.tasks, t.pc = .done

/-- `execute` returns in a state with nothing outstanding. -/
theorem finished_of_returned {n : ℕ} {tr : List (State × Action)} (h : Run (machine g n) tr s)
    (hr : s.phase = .returned) : Finished s := by
  have hinv : s.phase = .returned → ∀ t ∈ s.tasks, t.pc = .done := by
    refine Run.invariant (I := fun s => s.phase = .returned → ∀ t ∈ s.tasks, t.pc = .done)
      (by simp [machine]) ?_ h
    intro u a v hu hs hv
    cases a with
    | seed =>
      simp only [machine, step] at hs
      split at hs
      · split_ifs at hs <;> cases hs <;> cases hv
      · cases hs
    | start j =>
      simp only [machine, step] at hs
      split at hs
      · rename_i hphase _
        split_ifs at hs
        cases hs
        exact absurd (hphase.symm.trans hv) (by simp)
      · cases hs
    | task j =>
      obtain ⟨t, hj, ht⟩ := Option.bind_eq_some_iff.mp hs
      have hphase : v.phase = u.phase := taskStep_phase ht
      have hdone := hu (hphase ▸ hv) t (List.mem_of_getElem? hj)
      simp [taskStep, hdone] at ht
    | ret =>
      simp only [machine, step] at hs
      split_ifs at hs with hd
      cases hs
      exact hd.2
  exact ⟨by simp [hr], hinv hr⟩

theorem claims_of_done {t : Task} (h : t.pc = .done) (v : ℕ) :
    t.claims g v = if t.node = v then 1 else 0 := by
  simp [Task.claims, Task.submits, h]

theorem due_of_finished (h : Inv g s) (hf : Finished s) {v : ℕ} (hv : v < g.size) :
    Due g s v ↔ ∃ t ∈ s.tasks, t.node = v := by
  have hclaimed := h.claimed v hv
  constructor
  · intro hdue
    by_contra hnone
    push Not at hnone
    have hzero : total (Task.claims g v) s.tasks = 0 := by
      refine List.sum_eq_zero fun x hx => ?_
      obtain ⟨t, ht, rfl⟩ := List.mem_map.mp hx
      rw [claims_of_done (hf.done t ht), if_neg (hnone t ht)]
    simp [hzero, hdue] at hclaimed
  · rintro ⟨t, ht, hnode⟩
    have hle := le_total (w := Task.claims g v) ht
    rw [claims_of_done (hf.done t ht), if_pos hnode, hclaimed] at hle
    by_contra hdue
    simp [hdue] at hle

/-- With nothing outstanding, a node whose predecessors have all run has run as well. -/
theorem mem_of_preds (h : Inv g s) (hf : Finished s) {v : ℕ} (hv : v < g.size)
    (hpreds : ∀ u, Edge g u v → ∃ t ∈ s.tasks, t.node = u) : ∃ t ∈ s.tasks, t.node = v := by
  refine (due_of_finished h hf hv).mp ?_
  unfold Due
  split_ifs with h0
  · have hs : seeded g s.phase = g.size := by
      cases hp : s.phase with
      | seeding i => exact absurd hp (hf.seeded i)
      | _ => rfl
    rw [hs]
    exact hv
  · rw [decremented_eq h.nodup h.nodes]
    refine Finset.sum_congr rfl fun u _ => ?_
    by_cases he : Edge g u v
    · obtain ⟨t, ht, rfl⟩ := hpreds u he
      have hall : progressOf g s.tasks t.node = (g.successors t.node).length := by
        simp only [progressOf, find_of_nodup h.nodup ht, Task.progress, hf.done t ht]
      rw [hall, List.take_length]
      rfl
    · have hnone : edges g u v = 0 := List.count_eq_zero.mpr he
      have hle := take_count_le g u v (progressOf g s.tasks u)
      omega

theorem ancestors_finite (hw : Wired g) (v : ℕ) : (ancestors (Edge g) v).Finite := by
  refine (Set.finite_Iio g.size).subset fun u hu => ?_
  obtain ⟨w, hw', -⟩ := TransGen.head'_iff.mp hu
  exact (hw.bounded u w hw').1

/-- The position of the node's task in the order of submission. -/
def rank (tasks : List Task) (v : ℕ) : ℕ := tasks.findIdx (·.node = v)

theorem rank_eq {tasks : List Task} (hn : (tasks.map Task.node).Nodup) {j : ℕ} {t : Task}
    (hj : tasks[j]? = some t) : rank tasks t.node = j := by
  obtain ⟨hlt, ht⟩ := List.getElem?_eq_some_iff.mp hj
  refine (List.findIdx_eq hlt).mpr ⟨by simp [ht], fun i hi => ?_⟩
  have hne := List.pairwise_iff_getElem.mp hn i j (by simp; omega) (by simpa using hlt) hi
  simpa [ht] using hne

/-- No node that a cycle leads to is ever submitted. -/
theorem Inv.not_tainted (h : Inv g s) {t : Task} (ht : t ∈ s.tasks) :
    ¬ Tainted (Edge g) t.node := by
  have hrank : ∀ u v, v ∈ {v | ∃ t ∈ s.tasks, t.node = v} → Edge g u v →
      u ∈ {v | ∃ t ∈ s.tasks, t.node = v} ∧ rank s.tasks u < rank s.tasks v := by
    rintro u v ⟨x, hx, rfl⟩ he
    obtain ⟨j, hj⟩ := List.getElem?_of_mem hx
    obtain ⟨i, hi, x', hi', rfl, -⟩ := h.ordered j x hj u he
    refine ⟨⟨x', List.mem_of_getElem? hi', rfl⟩, ?_⟩
    rw [rank_eq h.nodup hj, rank_eq h.nodup hi']
    exact hi
  exact not_tainted_of_mem hrank ⟨t, ht, rfl⟩

/-- With nothing outstanding, the submitted nodes are those that no cycle leads to. -/
theorem mem_nodes_iff (hw : Wired g) (h : Inv g s) (hf : Finished s) (v : ℕ) :
    v ∈ s.tasks.map Task.node ↔ v < g.size ∧ ¬ Tainted (Edge g) v := by
  constructor
  · intro hv
    obtain ⟨t, ht, rfl⟩ := List.mem_map.mp hv
    exact ⟨h.nodes t ht, h.not_tainted ht⟩
  · rintro ⟨hv, hclean⟩
    have hmem := mem_of_not_tainted (R := {v | v < g.size → ∃ t ∈ s.tasks, t.node = v})
      (ancestors_finite hw) (fun w hpreds hw' => mem_of_preds h hf hw' fun u hu =>
        hpreds u hu (hw.bounded u w hu).1) hclean
    exact List.mem_map.mpr (hmem hv)

/-- `remaining_nodes_` is in the end the number of the other nodes. -/
theorem remaining_eq (hw : Wired g) (h : Inv g s) (hf : Finished s) :
    s.remainingNodes = ({v | v < g.size ∧ Tainted (Edge g) v} : Set ℕ).ncard := by
  have hdone : total Task.finished s.tasks = s.tasks.length := by
    have hone : s.tasks.map Task.finished = s.tasks.map fun _ => 1 :=
      List.map_congr_left fun t ht => if_pos (hf.done t ht)
    simp [total, hone]
  have hran : ((s.tasks.map Task.node).toFinset : Set ℕ).ncard = s.tasks.length := by
    rw [Set.ncard_coe_finset, List.toFinset_card_of_nodup h.nodup, List.length_map]
  have hdisj : Disjoint {v | v < g.size ∧ Tainted (Edge g) v}
      ((s.tasks.map Task.node).toFinset : Set ℕ) := by
    refine Set.disjoint_left.mpr fun v hv hmem => ?_
    exact ((mem_nodes_iff hw h hf v).mp (by simpa using hmem)).2 hv.2
  have hunion : {v | v < g.size ∧ Tainted (Edge g) v} ∪
      ((s.tasks.map Task.node).toFinset : Set ℕ) = Finset.range g.size := by
    ext v
    have hiff := mem_nodes_iff hw h hf v
    simp only [Set.mem_union, Set.mem_ofPred_eq, Finset.mem_coe, List.mem_toFinset, hiff,
      Finset.mem_range]
    tauto
  have hcard := Set.ncard_union_eq hdisj ((Set.finite_Iio g.size).subset fun v hv => hv.1)
    (Finset.finite_toSet _)
  rw [hunion, Set.ncard_coe_finset, Finset.card_range, hran] at hcard
  have hrem := h.remaining
  omega

theorem remaining_eq_zero_iff (hw : Wired g) (h : Inv g s) (hf : Finished s) :
    s.remainingNodes = 0 ↔ ∀ v, ¬ TransGen (Edge g) v v := by
  have hfin : ({v | v < g.size ∧ Tainted (Edge g) v} : Set ℕ).Finite :=
    (Set.finite_Iio g.size).subset fun v hv => hv.1
  rw [remaining_eq hw h hf, Nat.cast_eq_zero, Set.ncard_eq_zero hfin]
  constructor
  · intro hempty v hv
    obtain ⟨w, he, -⟩ := TransGen.head'_iff.mp hv
    have hmem : v ∈ {v | v < g.size ∧ Tainted (Edge g) v} :=
      ⟨(hw.bounded v w he).1, v, hv, .refl⟩
    rw [hempty] at hmem
    exact hmem
  · intro hacyclic
    refine Set.eq_empty_of_forall_notMem fun v hv => ?_
    obtain ⟨-, c, hc, -⟩ := hv
    exact hacyclic c hc

/-- The node whose `fn_` the step runs. -/
def ranNode (s : State) : Action → Option ℕ
  | .task j => s.tasks[j]?.bind fun t => if t.pc = .fn then some t.node else none
  | _ => none

def Task.ran (v : ℕ) (t : Task) : ℕ := if t.pc.returned ∧ t.node = v then 1 else 0

theorem set_ran {tasks : List Task} {j v : ℕ} {t : Task} (hj : tasks[j]? = some t) {pc : TaskPc}
    (h : pc.returned = t.pc.returned) :
    total (Task.ran v) (tasks.set j { t with pc := pc }) = total (Task.ran v) tasks :=
  total_set_same hj (by simp only [Task.ran, h])

theorem submitNode_ran (u v : ℕ) :
    total (Task.ran v) (submitNode s u).tasks = total (Task.ran v) s.tasks := by
  simp [submitNode, total_append, Task.ran, TaskPc.returned]

theorem taskStep_ran {j : ℕ} {t : Task} (hj : s.tasks[j]? = some t)
    (hs : taskStep g s j t = some s') (v : ℕ) :
    total (Task.ran v) s'.tasks = total (Task.ran v) s.tasks +
      (ranNode s (.task j)).toList.count v := by
  cases hpc : t.pc with
  | fn =>
    simp only [taskStep, hpc, Option.some.injEq] at hs
    subst hs
    have hset := total_set (Task.ran v) hj { t with pc := .succ 0 }
    have hold : t.ran v = 0 := by simp [Task.ran, hpc, TaskPc.returned]
    have hnew : Task.ran v { t with pc := .succ 0 } = if t.node = v then 1 else 0 := by
      simp [Task.ran, TaskPc.returned]
    have hlog : (ranNode s (.task j)).toList.count v = if t.node = v then 1 else 0 := by
      simp [ranNode, hj, hpc, List.count_singleton]
    rw [hlog, ← hnew]
    simp only [State.setPc]
    omega
  | succ k =>
    cases hv : (g.successors t.node)[k]? with
    | some u =>
      simp only [taskStep, hpc, hv, Option.some.injEq] at hs
      subst hs
      refine (set_ran hj (by rw [hpc]; split_ifs <;> rfl)).trans ?_
      simp [ranNode, hj, hpc]
    | none =>
      simp only [taskStep, hpc, hv, Option.some.injEq] at hs
      subst hs
      refine (set_ran hj (by rw [hpc]; rfl)).trans ?_
      simp [ranNode, hj, hpc]
  | submit k =>
    simp only [taskStep, hpc, Option.map_eq_some_iff] at hs
    obtain ⟨u, -, rfl⟩ := hs
    refine (submitNode_ran u v).trans ((set_ran hj (by rw [hpc]; rfl)).trans ?_)
    simp [ranNode, hj, hpc]
  | finish =>
    simp only [taskStep, hpc, Option.some.injEq] at hs
    subst hs
    refine (set_ran hj (by rw [hpc]; rfl)).trans ?_
    simp [ranNode, hj, hpc]
  | queued => simp [taskStep, hpc] at hs
  | done => simp [taskStep, hpc] at hs

theorem step_ran {n : ℕ} {a : Action} (hs : step g n s a = some s') (v : ℕ) :
    total (Task.ran v) s'.tasks = total (Task.ran v) s.tasks +
      (ranNode s a).toList.count v := by
  cases a with
  | seed =>
    simp only [step] at hs
    split at hs
    · split_ifs at hs <;> cases hs
      · exact submitNode_ran _ v
      · rfl
      · rfl
    · cases hs
  | start j =>
    simp only [step] at hs
    split at hs
    · rename_i hj
      split_ifs at hs with hq
      cases hs
      exact set_ran hj (by rw [hq.1]; rfl)
    · cases hs
  | task j =>
    obtain ⟨t, hj, ht⟩ := Option.bind_eq_some_iff.mp hs
    exact taskStep_ran hj ht v
  | ret =>
    simp only [step] at hs
    split_ifs at hs
    cases hs
    rfl

/-- The runs of `fn_` so far are those of the tasks in which it has returned. -/
theorem ran_count {n : ℕ} {tr : List (State × Action)} (h : Run (machine g n) tr s) (v : ℕ) :
    (log ranNode tr).count v = total (Task.ran v) s.tasks := by
  refine Run.history (I := fun tr s => (log ranNode tr).count v = total (Task.ran v) s.tasks)
    (by simp [machine, total]) ?_ h
  intro tr u a w ih hs
  rw [log_snoc, List.count_append, ih]
  exact (step_ran hs v).symm

theorem count_node {tasks : List Task} (h : ∀ t ∈ tasks, t.pc = .done) (v : ℕ) :
    (tasks.map Task.node).count v = total (Task.ran v) tasks := by
  induction tasks with
  | nil => rfl
  | cons t tasks ih =>
    have hrest := ih fun x hx => h x (List.mem_cons_of_mem t hx)
    have hran : t.ran v = if t.node = v then 1 else 0 := by
      simp [Task.ran, h t (by simp), TaskPc.returned]
    simp only [total, List.map_cons, List.sum_cons, List.count_cons, beq_iff_eq, hran] at hrest ⊢
    omega

theorem ran_perm {n : ℕ} {tr : List (State × Action)} (h : Run (machine g n) tr s)
    (hf : Finished s) : (log ranNode tr).Perm (s.tasks.map Task.node) :=
  List.perm_iff_count.mpr fun v => (ran_count h v).trans (count_node hf.done v).symm

/-- Every run of `execute` on a graph whose nodes have fewer than `2^32` `depends_on` edges is
bounded and goes on until it returns; once nothing is outstanding, the nodes that have run,
each once, are those on no cycle and behind none, `remaining_nodes_` counts the others, and it
is zero exactly for an acyclic graph. -/
theorem completes_untainted {ops : List BuildOp} {n : ℕ} {tr : List (State × Action)}
    (hb : build ops = some g) (hsmall : ∀ v, inDegree g v < 2 ^ 32)
    (h : Run (machine g n) tr s) :
    s.tasks.length ≤ g.size ∧ tr.length ≤ stepBound g ∧
      (0 < n → s.phase ≠ .returned → ∃ a s', step g n s a = some s') ∧
      (s.phase = .returned → Finished s) ∧
      (Finished s → (log ranNode tr).Nodup ∧
        (∀ v, v ∈ log ranNode tr ↔ v < g.size ∧ ¬ Tainted (Edge g) v) ∧
        s.remainingNodes = ({v | v < g.size ∧ Tainted (Edge g) v} : Set ℕ).ncard ∧
        (s.remainingNodes = 0 ↔ ∀ v, ¬ TransGen (Edge g) v v)) := by
  have hw := wired_of_build hb
  have hinv := inv_of_run hw hsmall h
  refine ⟨hinv.length_le, length_le_stepBound hw hsmall h, hinv.progress,
    finished_of_returned h, fun hf => ⟨?_, fun v => ?_, remaining_eq hw hinv hf,
    remaining_eq_zero_iff hw hinv hf⟩⟩
  · exact (ran_perm h hf).nodup_iff.mpr hinv.nodup
  · exact (ran_perm h hf).mem_iff.trans (mem_nodes_iff hw hinv hf v)

/-- Node `1` depends on node `0`, node `2` on itself. -/
def loopOps : List BuildOp := [.node, .node, .node, .dependsOn 1 [0], .dependsOn 2 [2]]

/-- The nodes `0` and `1` run, node `2` does not, and `execute` returns. -/
def loopSchedule : List Action := List.flatten
  [List.replicate 4 .seed, [.start 0], List.replicate 5 (.task 0), [.start 1],
    List.replicate 3 (.task 1), [.ret]]

theorem completes_untainted_loop :
    ∃ g s, build loopOps = some g ∧
      exec (machine g 1) (machine g 1).init loopSchedule = some s ∧
      s.remainingNodes = ({v | v < g.size ∧ Tainted (Edge g) v} : Set ℕ).ncard := by
  have hen : (build loopOps).any fun g =>
      decide (∑ u ∈ Finset.range g.size, (g.successors u).length < 2 ^ 32) &&
        (exec (machine g 1) (machine g 1).init loopSchedule).any fun s =>
          decide (s.phase = .returned) := by decide
  obtain ⟨g, hg, hdec⟩ := (Option.any_eq_true _ _).mp hen
  obtain ⟨hlen, hrun⟩ := (Bool.and_eq_true _ _).mp hdec
  obtain ⟨s, hs, hret⟩ := (Option.any_eq_true _ _).mp hrun
  have hsmall : ∀ v, inDegree g v < 2 ^ 32 := fun v =>
    (inDegree_le g v).trans_lt (of_decide_eq_true hlen)
  obtain ⟨-, -, -, hfin, hall⟩ := completes_untainted hg hsmall (exec_steps hs)
  exact ⟨g, s, hg, hs, (hall (hfin (of_decide_eq_true hret))).2.2.1⟩

/-- Node `1` runs after its counter has wrapped to zero, behind the cycle of node `0`. -/
theorem tainted_completed :
    ¬ ∀ (ops : List BuildOp) (g : Graph) (n : ℕ) (tr : List (State × Action)) (s : State),
      build ops = some g → Run (machine g n) tr s →
        s.tasks.length ≤ g.size ∧ tr.length ≤ stepBound g ∧
        (0 < n → s.phase ≠ .returned → ∃ a s', step g n s a = some s') ∧
        (s.phase = .returned → Finished s) ∧
        (Finished s → (log ranNode tr).Nodup ∧
          (∀ v, v ∈ log ranNode tr ↔ v < g.size ∧ ¬ Tainted (Edge g) v) ∧
          s.remainingNodes = ({v | v < g.size ∧ Tainted (Edge g) v} : Set ℕ).ncard ∧
          (s.remainingNodes = 0 ↔ ∀ v, ¬ TransGen (Edge g) v v)) := by
  intro h
  obtain ⟨m, hm, hpos⟩ := exists_wrapped
  obtain ⟨g, hb, hsize, h0, h1⟩ := exists_repeated m
  have hs := exec_wrapped (wired_of_build hb) hm hsize h0 h1
  have hrest : exec (machine g 1)
      { (machine g 1).init with tasks := [⟨1, .fn⟩], phase := .running }
      [.task 0, .task 0, .task 0, .ret] = some
        { (machine g 1).init with
          tasks := [⟨1, .done⟩], phase := .returned, remainingNodes := g.size - 1 } := by
    simp [exec, machine, step, taskStep, h1, State.setPc]
  have hall := exec_append (machine g 1).init wrappedSchedule [.task 0, .task 0, .task 0, .ret]
    (M := machine g 1)
  rw [hs, Option.bind_some, hrest] at hall
  obtain ⟨-, -, -, hfin, hdone⟩ := h _ g 1 _ _ hb (exec_steps hall)
  have hmem : 1 ∈ log ranNode (record (machine g 1) (machine g 1).init
      (wrappedSchedule ++ [.task 0, .task 0, .task 0, .ret])) :=
    (ran_perm (exec_steps hall) (hfin rfl)).mem_iff.mpr (by simp)
  have hself : Edge g 0 0 := by simp [Edge, h0]
  have hedge : Edge g 0 1 := by
    rw [Edge, h0]
    exact List.mem_cons_of_mem _ (List.mem_replicate.mpr ⟨hpos.ne', rfl⟩)
  exact (((hdone (hfin rfl)).2.1 1).mp hmem).2 ⟨0, .single hself, .single hedge⟩

end TaskScheduler.Dag
