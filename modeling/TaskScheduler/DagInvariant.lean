import TaskScheduler.DagBuild

/-!
# The counters during execution

How far the task of each node is inside its successor loop decides every counter, which
decides in turn whether the node has been submitted.
-/
namespace TaskScheduler.Dag
open Transition

/-- The number of successors that the task has counted off. -/
def Task.progress (g : Graph) (t : Task) : ℕ :=
  match t.pc with
  | .queued | .fn => 0
  | .succ k => k
  | .submit k => k + 1
  | .finish | .done => (g.successors t.node).length

/-- The decrements that the task has made on the counter of `v`. -/
def Task.made (g : Graph) (v : ℕ) (t : Task) : ℕ :=
  ((g.successors t.node).take (t.progress g)).count v

/-- The node that the task is about to submit. -/
def Task.submits (g : Graph) (t : Task) : Option ℕ :=
  match t.pc with
  | .submit k => (g.successors t.node)[k]?
  | _ => none

/-- The task is that of `v`, or is about to submit `v`. -/
def Task.claims (g : Graph) (v : ℕ) (t : Task) : ℕ :=
  (if t.node = v then 1 else 0) + if t.submits g = some v then 1 else 0

/-- The code of the node has returned. -/
def TaskPc.returned : TaskPc → Bool
  | .queued | .fn => false
  | _ => true

def Task.finished (t : Task) : ℕ := if t.pc = .done then 1 else 0

def TaskPc.Ok (len : ℕ) : TaskPc → Prop
  | .succ k => k ≤ len
  | .submit k => k < len
  | _ => True

def total (w : Task → ℕ) (tasks : List Task) : ℕ := (tasks.map w).sum

theorem total_append (w : Task → ℕ) (tasks : List Task) (t : Task) :
    total w (tasks ++ [t]) = total w tasks + w t := Counting.sum_map_append w tasks t

theorem total_set (w : Task → ℕ) {tasks : List Task} {j : ℕ} {t : Task}
    (h : tasks[j]? = some t) (x : Task) :
    total w (tasks.set j x) + w t = total w tasks + w x := Counting.sum_map_set w h x

theorem total_set_same {w : Task → ℕ} {tasks : List Task} {j : ℕ} {t x : Task}
    (h : tasks[j]? = some t) (hw : w x = w t) : total w (tasks.set j x) = total w tasks := by
  have := total_set w h x
  omega

theorem le_total {w : Task → ℕ} {tasks : List Task} {t : Task} (h : t ∈ tasks) :
    w t ≤ total w tasks := List.le_sum_of_mem (List.mem_map.mpr ⟨t, h, rfl⟩)

/-- The decrements made so far on the counter of `v`. -/
def decremented (g : Graph) (tasks : List Task) (v : ℕ) : ℕ := total (Task.made g v) tasks

/-- The number of nodes that the seeding loop has passed. -/
def seeded (g : Graph) : Phase → ℕ
  | .seeding i => i
  | _ => g.size

/-- The node is due for submission: it was passed by the seeding loop without any dependency,
or all its dependencies have been counted off. -/
def Due (g : Graph) (s : State) (v : ℕ) : Prop :=
  if inDegree g v = 0 then v < seeded g s.phase else decremented g s.tasks v = inDegree g v

instance (g : Graph) (s : State) (v : ℕ) : Decidable (Due g s v) :=
  inferInstanceAs (Decidable (if inDegree g v = 0 then v < seeded g s.phase
    else decremented g s.tasks v = inDegree g v))

/-- The predecessors of every task's node have returned, in tasks submitted before. -/
def Ordered (g : Graph) (tasks : List Task) : Prop :=
  ∀ (j : ℕ) (t : Task), tasks[j]? = some t → ∀ u, Edge g u t.node →
    ∃ i < j, ∃ t' : Task, tasks[i]? = some t' ∧ t'.node = u ∧ t'.pc.returned

structure Inv (g : Graph) (s : State) : Prop where
  deps : ∀ v, s.depsRemaining v = int32 (inDegree g v - decremented g s.tasks v)
  claimed : ∀ v < g.size, total (Task.claims g v) s.tasks = if Due g s v then 1 else 0
  seeding : ∀ i, s.phase = .seeding i → i ≤ g.size ∧ ∀ t ∈ s.tasks, t.pc = .queued
  nodes : ∀ t ∈ s.tasks, t.node < g.size
  pcs : ∀ t ∈ s.tasks, t.pc.Ok (g.successors t.node).length
  ordered : Ordered g s.tasks
  remaining : s.remainingNodes = g.size - total Task.finished s.tasks

/-- The invariant without the seeding loop, which may itself be about to submit nodes, as `extra`
counts them. -/
structure Core (g : Graph) (extra : ℕ → ℕ) (s : State) : Prop where
  deps : ∀ v, s.depsRemaining v = int32 (inDegree g v - decremented g s.tasks v)
  claimed : ∀ v < g.size,
    total (Task.claims g v) s.tasks + extra v = if Due g s v then 1 else 0
  nodes : ∀ t ∈ s.tasks, t.node < g.size
  pcs : ∀ t ∈ s.tasks, t.pc.Ok (g.successors t.node).length
  ordered : Ordered g s.tasks
  remaining : s.remainingNodes = g.size - total Task.finished s.tasks

variable {g : Graph} {extra : ℕ → ℕ} {s s' : State}

theorem Inv.core (h : Inv g s) : Core g (fun _ => 0) s where
  deps := h.deps
  claimed := h.claimed
  nodes := h.nodes
  pcs := h.pcs
  ordered := h.ordered
  remaining := h.remaining

theorem Core.inv (h : Core g (fun _ => 0) s)
    (hs : ∀ i, s.phase = .seeding i → i ≤ g.size ∧ ∀ t ∈ s.tasks, t.pc = .queued) : Inv g s where
  deps := h.deps
  claimed := h.claimed
  seeding := hs
  nodes := h.nodes
  pcs := h.pcs
  ordered := h.ordered
  remaining := h.remaining

/-- The progress of the task of node `u`, zero as long as it is not submitted. -/
def progressOf (g : Graph) (tasks : List Task) (u : ℕ) : ℕ :=
  match tasks.find? (·.node = u) with
  | some t => t.progress g
  | none => 0

theorem Core.claimed_le (h : Core g extra s) {v : ℕ} (hv : v < g.size) :
    total (Task.claims g v) s.tasks ≤ 1 := by
  refine (Nat.le_add_right _ (extra v)).trans ?_
  rw [h.claimed v hv]
  split_ifs <;> simp

/-- No node is submitted twice. -/
theorem Core.nodup (h : Core g extra s) : (s.tasks.map Task.node).Nodup := by
  refine List.nodup_iff_count_le_one.mpr fun v => ?_
  by_cases hv : v < g.size
  · refine le_trans ?_ (h.claimed_le hv)
    have hcount : ∀ tasks : List Task, (tasks.map Task.node).count v ≤
        total (Task.claims g v) tasks := by
      intro tasks
      induction tasks with
      | nil => simp [total]
      | cons t tasks ih =>
        simp only [total, List.map_cons, List.count_cons, List.sum_cons, Task.claims,
          beq_iff_eq] at ih ⊢
        omega
    exact hcount s.tasks
  · rw [List.count_eq_zero_of_not_mem]
    · simp
    · intro hmem
      obtain ⟨t, ht, rfl⟩ := List.mem_map.mp hmem
      exact hv (h.nodes t ht)

theorem Inv.nodup (h : Inv g s) : (s.tasks.map Task.node).Nodup := h.core.nodup

theorem find_of_nodup {tasks : List Task} (hn : (tasks.map Task.node).Nodup) {t : Task}
    (ht : t ∈ tasks) : tasks.find? (·.node = t.node) = some t := by
  induction tasks with
  | nil => cases ht
  | cons x tasks ih =>
    obtain ⟨hx, hrest⟩ := List.nodup_cons.mp hn
    rcases List.mem_cons.mp ht with rfl | hmem
    · simp
    · have hne : x.node ≠ t.node := fun he => hx (he ▸ List.mem_map.mpr ⟨t, hmem, rfl⟩)
      simp [hne, ih hrest hmem]

/-- The decrements on a counter, told by predecessor. -/
theorem decremented_eq {tasks : List Task} (hn : (tasks.map Task.node).Nodup)
    (hnodes : ∀ t ∈ tasks, t.node < g.size) (v : ℕ) :
    decremented g tasks v =
      ∑ u ∈ Finset.range g.size, ((g.successors u).take (progressOf g tasks u)).count v := by
  have hmap : tasks.map (Task.made g v) = (tasks.map Task.node).map
      fun u => ((g.successors u).take (progressOf g tasks u)).count v := by
    rw [List.map_map]
    refine List.map_congr_left fun t ht => ?_
    simp only [Function.comp_apply, progressOf, find_of_nodup hn ht, Task.made]
  rw [decremented, total, hmap, ← List.sum_toFinset _ hn]
  refine Finset.sum_subset (fun u hu => ?_) fun u _ hu => ?_
  · obtain ⟨t, ht, rfl⟩ := List.mem_map.mp (List.mem_toFinset.mp hu)
    exact Finset.mem_range.mpr (hnodes t ht)
  · have hnone : tasks.find? (·.node = u) = none := by
      refine List.find?_eq_none.mpr fun t ht he => hu ?_
      exact List.mem_toFinset.mpr (List.mem_map.mpr ⟨t, ht, by simpa using he⟩)
    simp [progressOf, hnone]

theorem take_count_le (g : Graph) (u v n : ℕ) :
    ((g.successors u).take n).count v ≤ edges g u v :=
  List.Sublist.count_le v (List.take_sublist _ _)

theorem decremented_le {tasks : List Task} (hn : (tasks.map Task.node).Nodup)
    (hnodes : ∀ t ∈ tasks, t.node < g.size) (v : ℕ) : decremented g tasks v ≤ inDegree g v := by
  rw [decremented_eq hn hnodes]
  exact Finset.sum_le_sum fun u _ => take_count_le g u v _

/-- Where a counter has been counted down to zero, all predecessors have returned. -/
theorem returned_of_decremented {tasks : List Task} (hw : Wired g)
    (hn : (tasks.map Task.node).Nodup) (hnodes : ∀ t ∈ tasks, t.node < g.size) {u v : ℕ}
    (hd : decremented g tasks v = inDegree g v) (he : Edge g u v) :
    ∃ t ∈ tasks, t.node = u ∧ t.pc.returned := by
  rw [decremented_eq hn hnodes] at hd
  have hall := (Finset.sum_eq_sum_iff_of_le fun u _ => take_count_le g u v _).mp hd
  have hu := hall u (Finset.mem_range.mpr (hw.bounded u v he).1)
  have hpos : 0 < ((g.successors u).take (progressOf g tasks u)).count v := by
    rw [hu]
    exact edge_iff.mp he
  cases hf : tasks.find? (·.node = u) with
  | none => simp [progressOf, hf] at hpos
  | some t =>
    have hnode : t.node = u := by simpa using List.find?_some hf
    refine ⟨t, List.mem_of_find?_eq_some hf, hnode, ?_⟩
    simp only [progressOf, hf, Task.progress] at hpos
    cases hpc : t.pc <;> simp_all [TaskPc.returned]

section Ordered
variable {tasks : List Task}

theorem getElem?_set_of_some {j : ℕ} {t : Task} (hj : tasks[j]? = some t) (x : Task) (i : ℕ) :
    (tasks.set j x)[i]? = if i = j then some x else tasks[i]? := by
  obtain ⟨hlt, _⟩ := List.getElem?_eq_some_iff.mp hj
  rcases eq_or_ne i j with rfl | hne
  · simp [hlt]
  · simp [hne, hne.symm]

theorem Ordered.set (h : Ordered g tasks) {j : ℕ} {t : Task} (hj : tasks[j]? = some t)
    {pc : TaskPc} (hr : t.pc.returned → pc.returned) :
    Ordered g (tasks.set j { t with pc := pc }) := by
  have hfwd : ∀ (i : ℕ) (x : Task), tasks[i]? = some x → x.pc.returned →
      ∃ x' : Task, (tasks.set j { t with pc := pc })[i]? = some x' ∧ x'.node = x.node ∧
        x'.pc.returned := by
    intro i x hi hx
    rw [getElem?_set_of_some hj]
    rcases eq_or_ne i j with rfl | hne
    · obtain rfl : x = t := by rw [hi] at hj; exact Option.some.inj hj
      exact ⟨_, if_pos rfl, rfl, hr hx⟩
    · exact ⟨x, by rw [if_neg hne, hi], rfl, hx⟩
  intro i x hi u hu
  rw [getElem?_set_of_some hj] at hi
  have hold : ∃ y : Task, tasks[i]? = some y ∧ y.node = x.node := by
    split_ifs at hi with he
    · cases hi
      exact ⟨t, he ▸ hj, rfl⟩
    · exact ⟨x, hi, rfl⟩
  obtain ⟨y, hy, hnode⟩ := hold
  obtain ⟨k, hk, z, hz, rfl, hzr⟩ := h i y hy u (hnode ▸ hu)
  obtain ⟨z', hz', hnode', hzr'⟩ := hfwd k z hz hzr
  exact ⟨k, hk, z', hz', hnode', hzr'⟩

/-- A node is submitted after its predecessors have returned. -/
theorem Ordered.append (h : Ordered g tasks) {v : ℕ}
    (hv : ∀ u, Edge g u v → ∃ t ∈ tasks, t.node = u ∧ t.pc.returned) :
    Ordered g (tasks ++ [⟨v, .queued⟩]) := by
  intro i x hi u hu
  rcases Nat.lt_trichotomy i tasks.length with hlt | rfl | hgt
  · rw [List.getElem?_append_left hlt] at hi
    obtain ⟨k, hk, z, hz, hrest⟩ := h i x hi u hu
    exact ⟨k, hk, z, by rw [List.getElem?_append_left (hk.trans hlt), hz], hrest⟩
  · simp only [List.getElem?_concat_length, Option.some.injEq] at hi
    subst hi
    obtain ⟨t, ht, hrest⟩ := hv u hu
    obtain ⟨k, hk, rfl⟩ := List.getElem_of_mem ht
    exact ⟨k, hk, tasks[k], by rw [List.getElem?_append_left hk]; simp, hrest⟩
  · rw [List.getElem?_eq_none (by simp; omega)] at hi
    cases hi

end Ordered

/-- Beyond the seeding loop no node becomes due but by a decrement. -/
theorem due_congr (s s' : State) (hi : ∀ v, decremented g s'.tasks v = decremented g s.tasks v)
    (hp : s'.phase = s.phase) (v : ℕ) : Due g s' v ↔ Due g s v := by
  simp only [Due, hi, hp]

theorem mem_set_of {tasks : List Task} {j : ℕ} {x y : Task} (h : y ∈ tasks.set j x) :
    y ∈ tasks ∨ y = x := List.mem_or_eq_of_mem_set h

/-- A task moves on without a decrement and without a submission. -/
theorem Core.setPc (h : Core g extra s) {j : ℕ} {t : Task} (hj : s.tasks[j]? = some t) {pc : TaskPc}
    {r : ℤ}
    (hmade : Task.progress g { t with pc := pc } = t.progress g)
    (hsub : Task.submits g { t with pc := pc } = t.submits g)
    (hok : pc.Ok (g.successors t.node).length) (hret : t.pc.returned → pc.returned)
    (hr : r + Task.finished { t with pc := pc } = s.remainingNodes + t.finished) :
    Core g extra ({ s with remainingNodes := r }.setPc j t pc) := by
  have hd : ∀ v, decremented g (s.tasks.set j { t with pc := pc }) v =
      decremented g s.tasks v := fun v => total_set_same hj (by simp only [Task.made, hmade])
  have hc : ∀ v, total (Task.claims g v) (s.tasks.set j { t with pc := pc }) =
      total (Task.claims g v) s.tasks := fun v =>
    total_set_same hj (by simp only [Task.claims, hsub])
  have ht := List.mem_of_getElem? hj
  refine ⟨fun v => ?_, fun v hv => ?_, fun x hx => ?_, fun x hx => ?_, h.ordered.set hj hret, ?_⟩
  · exact (h.deps v).trans (by rw [← hd v]; rfl)
  · refine (congrArg (· + extra v) (hc v)).trans ((h.claimed v hv).trans ?_)
    simp only [due_congr s
      ({ s with remainingNodes := r }.setPc j t pc) hd rfl v]
  · rcases mem_set_of hx with hx | rfl
    · exact h.nodes x hx
    · exact h.nodes t ht
  · rcases mem_set_of hx with hx | rfl
    · exact h.pcs x hx
    · exact hok
  · have hfin := total_set Task.finished hj { t with pc := pc }
    have hrem := h.remaining
    simp only [State.setPc]
    omega

theorem Core.start (h : Core g extra s) {j : ℕ} {t : Task} (hj : s.tasks[j]? = some t)
    (hq : t.pc = .queued) : Core g extra (s.setPc j t .fn) :=
  h.setPc hj (by simp [Task.progress, hq]) (by simp [Task.submits, hq]) trivial
    (by simp [hq, TaskPc.returned]) (by simp [Task.finished, hq])

theorem inDegree_pos (hw : Wired g) {u v : ℕ} (h : Edge g u v) : 0 < inDegree g v :=
  Finset.sum_pos' (fun _ _ => Nat.zero_le _)
    ⟨u, Finset.mem_range.mpr (hw.bounded u v h).1, edge_iff.mp h⟩

theorem map_node_set {tasks : List Task} {j : ℕ} {t : Task} (hj : tasks[j]? = some t)
    (pc : TaskPc) : (tasks.set j { t with pc := pc }).map Task.node = tasks.map Task.node := by
  refine List.ext_getElem? fun i => ?_
  rw [List.getElem?_map, getElem?_set_of_some hj, List.getElem?_map]
  split_ifs with hi
  · simp [hi, hj]
  · rfl

theorem take_succ_count {g : Graph} {u k v : ℕ} (hv : (g.successors u)[k]? = some v) (w : ℕ) :
    ((g.successors u).take (k + 1)).count w =
      ((g.successors u).take k).count w + if v = w then 1 else 0 := by
  rw [List.take_add_one, hv, List.count_append]
  simp [List.count_singleton]

theorem made_queued (v w : ℕ) : Task.made g w ⟨v, .queued⟩ = 0 := by
  simp [Task.made, Task.progress]

theorem claims_queued (v w : ℕ) : Task.claims g w ⟨v, .queued⟩ = if v = w then 1 else 0 := by
  simp [Task.claims, Task.submits]

/-- The node whose counter the next access of the task decrements. -/
def Task.counts (g : Graph) (t : Task) : Option ℕ :=
  match t.pc with
  | .succ k => (g.successors t.node)[k]?
  | _ => none

/-- What a step of a task does to the counter of `w`, to the decrements on it, and to the
submissions of `w`: the task that finds the counter at one will submit. -/
structure Counts (g : Graph) (s s' : State) (t : Task) (w : ℕ) : Prop where
  deps : s'.depsRemaining w =
    if t.counts g = some w then int32 (s.depsRemaining w - 1) else s.depsRemaining w
  made : decremented g s'.tasks w = decremented g s.tasks w + if t.counts g = some w then 1 else 0
  claims : total (Task.claims g w) s'.tasks =
    total (Task.claims g w) s.tasks + if t.counts g = some w ∧ s.depsRemaining w = 1 then 1 else 0

theorem Counts.setPc {j : ℕ} {t : Task} (hj : s.tasks[j]? = some t) (hnone : t.counts g = none)
    {pc : TaskPc} {r : ℤ} (hmade : ∀ w, Task.made g w { t with pc := pc } = t.made g w)
    (hsub : Task.submits g { t with pc := pc } = t.submits g) (w : ℕ) :
    Counts g s ({ s with remainingNodes := r }.setPc j t pc) t w where
  deps := by simp [hnone, State.setPc]
  made := by
    simp only [hnone, reduceCtorEq, if_false, Nat.add_zero]
    exact total_set_same hj (hmade w)
  claims := by
    simp only [hnone, reduceCtorEq, false_and, if_false, Nat.add_zero]
    exact total_set_same hj (by simp only [Task.claims, hsub])

theorem taskStep_counts {j : ℕ} {t : Task} (hj : s.tasks[j]? = some t)
    (hs : taskStep g s j t = some s') (w : ℕ) : Counts g s s' t w := by
  cases hpc : t.pc with
  | fn =>
    simp only [taskStep, hpc, Option.some.injEq] at hs
    subst hs
    exact .setPc hj (by simp [Task.counts, hpc]) (by simp [Task.made, Task.progress, hpc])
      (by simp [Task.submits, hpc]) w
  | succ k =>
    cases hv : (g.successors t.node)[k]? with
    | some v =>
      simp only [taskStep, hpc, hv, Option.some.injEq] at hs
      subst hs
      have hcounts : t.counts g = some v := by simp only [Task.counts, hpc, hv]
      generalize hpc' : (if s.depsRemaining v = 1 then TaskPc.submit k else .succ (k + 1)) = pc
      have hprog : Task.progress g { t with pc := pc } = k + 1 := by
        subst hpc'
        simp only [Task.progress]
        split_ifs <;> rfl
      refine ⟨?_, ?_, ?_⟩
      · simp only [hcounts, Option.some.injEq, State.setPc, Function.update_apply, eq_comm]
        split_ifs with hw
        · rw [hw]
        · rfl
      · have hset := total_set (Task.made g w) hj { t with pc := pc }
        have hmade : Task.made g w { t with pc := pc } = t.made g w + if v = w then 1 else 0 := by
          simp only [Task.made, hprog, take_succ_count hv w]
          simp only [Task.progress, hpc]
        simp only [decremented, State.setPc, hcounts, Option.some.injEq]
        omega
      · have hset := total_set (Task.claims g w) hj { t with pc := pc }
        have hnew : Task.claims g w { t with pc := pc } =
            t.claims g w + if v = w ∧ s.depsRemaining w = 1 then 1 else 0 := by
          subst hpc'
          by_cases hw : v = w
          · subst hw
            by_cases hprev : s.depsRemaining v = 1 <;>
              simp [Task.claims, Task.submits, hpc, hprev, hv]
          · by_cases hprev : s.depsRemaining v = 1 <;>
              simp [Task.claims, Task.submits, hpc, hprev, hv, hw]
        simp only [State.setPc, hcounts, Option.some.injEq]
        omega
    | none =>
      simp only [taskStep, hpc, hv, Option.some.injEq] at hs
      subst hs
      have hk : (g.successors t.node).length ≤ k := List.getElem?_eq_none_iff.mp hv
      exact .setPc hj (by simp only [Task.counts, hpc, hv])
        (fun w => by simp [Task.made, Task.progress, hpc, List.take_of_length_le hk])
        (by simp [Task.submits, hpc]) w
  | submit k =>
    simp only [taskStep, hpc, Option.map_eq_some_iff] at hs
    obtain ⟨v, hv, rfl⟩ := hs
    have hnone : t.counts g = none := by simp [Task.counts, hpc]
    refine ⟨by simp [hnone, submitNode, State.setPc], ?_, ?_⟩
    · simp only [hnone, reduceCtorEq, if_false, Nat.add_zero, submitNode, State.setPc, decremented,
        total_append, made_queued]
      exact total_set_same hj (by simp only [Task.made, Task.progress, hpc])
    · have hset := total_set (Task.claims g w) hj { t with pc := .succ (k + 1) }
      have hold : t.claims g w = Task.claims g w { t with pc := .succ (k + 1) } +
          if v = w then 1 else 0 := by
        simp [Task.claims, Task.submits, hpc, hv]
      simp only [hnone, reduceCtorEq, false_and, if_false, submitNode, State.setPc, total_append,
        claims_queued]
      omega
  | finish =>
    simp only [taskStep, hpc, Option.some.injEq] at hs
    subst hs
    exact .setPc hj (by simp [Task.counts, hpc]) (by simp [Task.made, Task.progress, hpc])
      (by simp [Task.submits, hpc]) w
  | queued => simp [taskStep, hpc] at hs
  | done => simp [taskStep, hpc] at hs

/-- A decrement. The task that brings the counter to zero is the one that will submit. -/
theorem Core.decrement (h : Core g extra s) (hw : Wired g) (hsmall : ∀ v, inDegree g v ≤ 2 ^ 32)
    {j k v : ℕ} {t : Task} (hj : s.tasks[j]? = some t) (hpc : t.pc = .succ k)
    (hv : (g.successors t.node)[k]? = some v) :
    Core g extra ({ s with
      depsRemaining := Function.update s.depsRemaining v (int32 (s.depsRemaining v - 1)) }.setPc j t
      (if s.depsRemaining v = 1 then .submit k else .succ (k + 1))) := by
  generalize hpc' : (if s.depsRemaining v = 1 then TaskPc.submit k else .succ (k + 1)) = pc
  have ht := List.mem_of_getElem? hj
  have hedge : Edge g t.node v := List.mem_of_getElem? hv
  have hk : k < (g.successors t.node).length := (List.getElem?_eq_some_iff.mp hv).1
  have hcounts := taskStep_counts (g := g) (s := s) hj
    (by simp only [taskStep, hpc, hv, hpc']; rfl)
  have hcounted : t.counts g = some v := by simp only [Task.counts, hpc, hv]
  have hdec : ∀ w, decremented g (s.tasks.set j { t with pc := pc }) w =
      decremented g s.tasks w + if v = w then 1 else 0 := fun w => by
    refine (hcounts w).made.trans (congrArg _ (if_congr ?_ rfl rfl))
    rw [hcounted, Option.some.injEq]
  have hnodes : ∀ x ∈ s.tasks.set j { t with pc := pc }, x.node < g.size := by
    intro x hx
    rcases mem_set_of hx with hx | rfl
    · exact h.nodes x hx
    · exact h.nodes t ht
  have hle : decremented g s.tasks v + 1 ≤ inDegree g v := by
    have hle := decremented_le (g := g) (by rw [map_node_set hj]; exact h.nodup) hnodes v
    rw [hdec v, if_pos rfl] at hle
    exact hle
  have hone : s.depsRemaining v = 1 ↔ decremented g s.tasks v + 1 = inDegree g v := by
    have hlt := hsmall v
    rw [h.deps v, int32_eq_one_iff (by omega) (by omega)]
    omega
  have hclaims : ∀ w, total (Task.claims g w) (s.tasks.set j { t with pc := pc }) =
      total (Task.claims g w) s.tasks + if s.depsRemaining v = 1 ∧ v = w then 1 else 0 := by
    intro w
    refine (hcounts w).claims.trans (congrArg _ (if_congr ?_ rfl rfl))
    rw [hcounted, Option.some.injEq, and_comm]
    exact and_congr_left fun he => by rw [he]
  refine ⟨fun w => ?_, fun w hw' => ?_, hnodes, fun x hx => ?_, h.ordered.set hj fun _ => ?_, ?_⟩
  · simp only [State.setPc]
    rw [hdec w]
    rcases eq_or_ne v w with rfl | hne
    · rw [Function.update_self, h.deps v, int32_sub, if_pos rfl]
      push_cast
      ring_nf
    · rw [Function.update_of_ne hne.symm, h.deps w, if_neg hne, Nat.add_zero]
  · refine (congrArg (· + extra w) (hclaims w)).trans ?_
    rw [Nat.add_right_comm, h.claimed w hw']
    rcases eq_or_ne v w with rfl | hne
    · have hpos : inDegree g v ≠ 0 := (inDegree_pos hw hedge).ne'
      have hbefore : ¬ Due g s v := by
        simp only [Due, if_neg hpos]
        omega
      have hafter : Due g ({ s with
          depsRemaining := Function.update s.depsRemaining v (int32 (s.depsRemaining v - 1)) }.setPc
          j t pc) v ↔ s.depsRemaining v = 1 := by
        simp only [Due, State.setPc, if_neg hpos, hdec v, if_true, hone]
      simp only [hbefore, hafter, and_true, if_false, Nat.zero_add]
    · have hsame : Due g ({ s with
          depsRemaining := Function.update s.depsRemaining v (int32 (s.depsRemaining v - 1)) }.setPc
          j t pc) w ↔ Due g s w := by
        simp only [Due, State.setPc, hdec w, if_neg hne, Nat.add_zero]
      simp only [hsame, hne, and_false, if_false, Nat.add_zero]
  · rcases mem_set_of hx with hx | rfl
    · exact h.pcs x hx
    · subst hpc'
      dsimp only
      split_ifs
      · exact hk
      · exact hk
  · subst hpc'
    split_ifs <;> rfl
  · have hfin := total_set Task.finished hj { t with pc := pc }
    have hrem := h.remaining
    have hsame : Task.finished { t with pc := pc } = t.finished := by
      subst hpc'
      simp only [Task.finished, hpc]
      split_ifs <;> simp_all
    simp only [State.setPc]
    omega

/-- The submission of a successor by the task that made its last decrement. -/
theorem Core.submit (h : Core g extra s) (hw : Wired g) {j k v : ℕ} {t : Task}
    (hj : s.tasks[j]? = some t) (hpc : t.pc = .submit k)
    (hv : (g.successors t.node)[k]? = some v) :
    Core g extra (submitNode (s.setPc j t (.succ (k + 1))) v) := by
  have ht := List.mem_of_getElem? hj
  have hedge : Edge g t.node v := List.mem_of_getElem? hv
  have hk : k < (g.successors t.node).length := (List.getElem?_eq_some_iff.mp hv).1
  have hsize := (hw.bounded _ _ hedge).2
  have hcounts := taskStep_counts (g := g) (s := s) hj
    (by simp only [taskStep, hpc, hv, Option.map_some]; rfl)
  have hnone : t.counts g = none := by simp [Task.counts, hpc]
  have hdec : ∀ w, decremented g (s.tasks.set j { t with pc := .succ (k + 1) } ++
      [⟨v, .queued⟩]) w = decremented g s.tasks w := fun w => by
    refine (hcounts w).made.trans ?_
    simp [hnone]
  have hset : ∀ w, decremented g (s.tasks.set j { t with pc := .succ (k + 1) }) w =
      decremented g s.tasks w := fun w => by
    rw [← hdec w, decremented, decremented, total_append, made_queued]
    rfl
  have hclaims : ∀ w, total (Task.claims g w)
      (s.tasks.set j { t with pc := .succ (k + 1) } ++ [⟨v, .queued⟩]) =
        total (Task.claims g w) s.tasks := fun w => by
    refine (hcounts w).claims.trans ?_
    simp [hnone]
  have hnodes : ∀ x ∈ s.tasks.set j { t with pc := .succ (k + 1) }, x.node < g.size := by
    intro x hx
    rcases mem_set_of hx with hx | rfl
    · exact h.nodes x hx
    · exact h.nodes t ht
  -- the submitting task claims `v`, so the counter of `v` is at zero
  have hdue : decremented g s.tasks v = inDegree g v := by
    have hclaim : 1 ≤ t.claims g v := by simp [Task.claims, Task.submits, hpc, hv]
    have hone := (hclaim.trans (le_total (w := Task.claims g v) ht)).trans
      (Nat.le_add_right _ (extra v))
    rw [h.claimed v hsize] at hone
    have hdue : Due g s v := by
      by_contra hnot
      simp [hnot] at hone
    simpa only [Due, if_neg (inDegree_pos hw hedge).ne'] using hdue
  refine ⟨fun w => ?_, fun w hw' => ?_, fun x hx => ?_, fun x hx => ?_,
    (h.ordered.set hj fun _ => rfl).append fun u hu => ?_, ?_⟩
  · exact (h.deps w).trans (by rw [← hdec w]; rfl)
  · refine (congrArg (· + extra w) (hclaims w)).trans ((h.claimed w hw').trans ?_)
    simp only [due_congr s (submitNode (s.setPc j t (.succ (k + 1))) v) hdec rfl w]
  · rcases List.mem_append.mp hx with hx | hx
    · exact hnodes x hx
    · rw [List.mem_singleton.mp hx]
      exact hsize
  · rcases List.mem_append.mp hx with hx | hx
    · rcases mem_set_of hx with hx | rfl
      · exact h.pcs x hx
      · exact hk
    · rw [List.mem_singleton.mp hx]
      trivial
  · have hnodup : ((s.tasks.set j { t with pc := .succ (k + 1) }).map Task.node).Nodup := by
      rw [map_node_set hj]
      exact h.nodup
    exact returned_of_decremented hw hnodup hnodes ((hset v).trans hdue) hu
  · have hfin := total_set Task.finished hj { t with pc := .succ (k + 1) }
    have hrem := h.remaining
    have hold : t.finished = 0 := by simp [Task.finished, hpc]
    have hnew : Task.finished { t with pc := .succ (k + 1) } = 0 := by simp [Task.finished]
    have hqueued : Task.finished ⟨v, .queued⟩ = 0 := by simp [Task.finished]
    simp only [submitNode, State.setPc, total_append]
    omega

theorem decremented_of_queued {tasks : List Task} (h : ∀ t ∈ tasks, t.pc = .queued) (v : ℕ) :
    decremented g tasks v = 0 := by
  refine List.sum_eq_zero fun x hx => ?_
  obtain ⟨t, ht, rfl⟩ := List.mem_map.mp hx
  simp [Task.made, Task.progress, h t ht]

/-- While the seeding loop runs a node is due exactly when it has been passed and has no
dependency. -/
theorem due_of_seeding {i : ℕ} (hp : s.phase = .seeding i) (hq : ∀ t ∈ s.tasks, t.pc = .queued)
    (v : ℕ) : Due g s v ↔ inDegree g v = 0 ∧ v < i := by
  simp only [Due, hp, seeded, decremented_of_queued hq]
  split_ifs with h0
  · simp [h0]
  · simp [h0, Ne.symm h0]

theorem Inv.seed (h : Inv g s) (hw : Wired g) (hsmall : ∀ v, inDegree g v < 2 ^ 32) {i : ℕ}
    (hp : s.phase = .seeding i) (hi : i < g.size) :
    Inv g (if s.depsRemaining i = 0 then submitNode { s with phase := .seeding (i + 1) } i
      else { s with phase := .seeding (i + 1) }) := by
  obtain ⟨_, hq⟩ := h.seeding i hp
  have hzero : s.depsRemaining i = 0 ↔ inDegree g i = 0 := by
    have hlt := hsmall i
    rw [h.deps i, decremented_of_queued hq,
      int32_eq_iff (by omega) (by omega) (by omega) (by omega)]
    omega
  have hclaimed : ∀ v < g.size, total (Task.claims g v) s.tasks =
      if inDegree g v = 0 ∧ v < i then 1 else 0 := fun v hv =>
    (h.claimed v hv).trans (if_congr (due_of_seeding hp hq v) rfl rfl)
  split_ifs with hdeps
  · have hq' : ∀ t ∈ s.tasks ++ [⟨i, .queued⟩], t.pc = .queued := by
      intro t ht
      rcases List.mem_append.mp ht with ht | ht
      · exact hq t ht
      · rw [List.mem_singleton.mp ht]
    have hnone : ∀ u, ¬ Edge g u i := fun u hu =>
      (inDegree_pos hw hu).ne' (hzero.mp hdeps)
    refine ⟨fun v => ?_, fun v hv => ?_, fun k hk => ?_, fun x hx => ?_, fun x hx => ?_,
      h.ordered.append fun u hu => absurd hu (hnone u), ?_⟩
    · refine (h.deps v).trans ?_
      rw [decremented_of_queued hq, ← decremented_of_queued (g := g) hq' v]
      rfl
    · refine Eq.trans ?_ (if_congr (due_of_seeding (s := submitNode
        { s with phase := .seeding (i + 1) } i) rfl hq' v) rfl rfl).symm
      have hsum := total_append (Task.claims g v) s.tasks ⟨i, .queued⟩
      rw [claims_queued, hclaimed v hv] at hsum
      refine hsum.trans ?_
      rcases Nat.lt_trichotomy v i with hlt | rfl | hgt
      · simp [hlt, hlt.ne', Nat.lt_succ_of_lt hlt]
      · simp [hzero.mp hdeps]
      · have h1 : ¬ v < i := by omega
        have h2 : ¬ v < i + 1 := by omega
        simp [h1, h2, hgt.ne]
    · obtain rfl : i + 1 = k := by simpa [submitNode] using hk
      exact ⟨hi, hq'⟩
    · rcases List.mem_append.mp hx with hx | hx
      · exact h.nodes x hx
      · rw [List.mem_singleton.mp hx]
        exact hi
    · rw [hq' x hx]
      trivial
    · have hrem := h.remaining
      have hqueued : Task.finished ⟨i, .queued⟩ = 0 := by simp [Task.finished]
      simp only [submitNode, total_append]
      omega
  · have hpos : inDegree g i ≠ 0 := fun h0 => hdeps (hzero.mpr h0)
    refine ⟨h.deps, fun v hv => ?_, fun k hk => ?_, h.nodes, h.pcs, h.ordered, h.remaining⟩
    · refine Eq.trans ?_ (if_congr (due_of_seeding (s := { s with phase := .seeding (i + 1) })
        rfl hq v) rfl rfl).symm
      refine (hclaimed v hv).trans (if_congr ?_ rfl rfl)
      rcases eq_or_ne v i with rfl | hne
      · simp [hpos]
      · have hiff : v < i ↔ v < i + 1 := by omega
        rw [hiff]
    · obtain rfl : i + 1 = k := by simpa using hk
      exact ⟨hi, hq⟩

theorem inv_init (hw : Wired g) (n : ℕ) : Inv g (machine g n).init where
  deps v := by
    rw [show (machine g n).init.depsRemaining v = g.depsRemaining v from rfl, hw.counted v]
    simp [decremented, total, machine]
  claimed v _ := by
    have hdue : ¬ Due g (machine g n).init v := by
      rw [due_of_seeding (i := 0) rfl (by simp [machine])]
      simp
    rw [if_neg hdue]
    rfl
  seeding i hi := by
    obtain rfl : 0 = i := by simpa [machine] using hi
    exact ⟨Nat.zero_le _, by simp [machine]⟩
  nodes t ht := by simp [machine] at ht
  pcs t ht := by simp [machine] at ht
  ordered j t hj := by simp [machine] at hj
  remaining := by simp [machine, total]

theorem Inv.not_seeding (h : Inv g s) {t : Task} (ht : t ∈ s.tasks) (hpc : t.pc ≠ .queued)
    (i : ℕ) : s.phase ≠ .seeding i := fun hp => hpc ((h.seeding i hp).2 t ht)

theorem taskStep_core (h : Core g extra s) (hw : Wired g) (hsmall : ∀ v, inDegree g v ≤ 2 ^ 32)
    {j : ℕ} {t : Task} (hj : s.tasks[j]? = some t) (hs : taskStep g s j t = some s') :
    Core g extra s' := by
  have hok := h.pcs t (List.mem_of_getElem? hj)
  cases hpc : t.pc with
  | fn =>
    simp only [taskStep, hpc, Option.some.injEq] at hs
    subst hs
    exact h.setPc hj (by simp [Task.progress, hpc]) (by simp [Task.submits, hpc]) (Nat.zero_le _)
      (fun _ => rfl) (by simp [Task.finished, hpc])
  | succ k =>
    cases hv : (g.successors t.node)[k]? with
    | some v =>
      simp only [taskStep, hpc, hv, Option.some.injEq] at hs
      subst hs
      exact h.decrement hw hsmall hj hpc hv
    | none =>
      simp only [taskStep, hpc, hv, Option.some.injEq] at hs
      subst hs
      have hk : k = (g.successors t.node).length := by
        rw [hpc] at hok
        exact le_antisymm hok (List.getElem?_eq_none_iff.mp hv)
      exact h.setPc hj (by simp [Task.progress, hpc, hk]) (by simp [Task.submits, hpc])
        trivial (fun _ => rfl) (by simp [Task.finished, hpc])
  | submit k =>
    simp only [taskStep, hpc, Option.map_eq_some_iff] at hs
    obtain ⟨v, hv, rfl⟩ := hs
    exact h.submit hw hj hpc hv
  | finish =>
    simp only [taskStep, hpc, Option.some.injEq] at hs
    subst hs
    exact h.setPc hj (by simp [Task.progress, hpc]) (by simp [Task.submits, hpc]) trivial
      (fun _ => rfl) (by simp [Task.finished, hpc])
  | queued => simp [taskStep, hpc] at hs
  | done => simp [taskStep, hpc] at hs

theorem taskStep_phase {j : ℕ} {t : Task} (hs : taskStep g s j t = some s') :
    s'.phase = s.phase := by
  cases hpc : t.pc with
  | succ k =>
    cases hv : (g.successors t.node)[k]? <;> simp only [taskStep, hpc, hv] at hs <;> cases hs <;>
      rfl
  | submit k =>
    simp only [taskStep, hpc, Option.map_eq_some_iff] at hs
    obtain ⟨v, -, rfl⟩ := hs
    rfl
  | _ => simp only [taskStep, hpc] at hs; cases hs <;> rfl

theorem taskStep_inv (h : Inv g s) (hw : Wired g) (hsmall : ∀ v, inDegree g v < 2 ^ 32)
    {j : ℕ} {t : Task} (hj : s.tasks[j]? = some t) (hs : taskStep g s j t = some s') :
    Inv g s' := by
  refine (taskStep_core h.core hw (fun v => (hsmall v).le) hj hs).inv fun i hi => ?_
  have hpc : t.pc ≠ .queued := by
    intro hq
    simp [taskStep, hq] at hs
  exact absurd ((taskStep_phase hs).symm.trans hi) (h.not_seeding (List.mem_of_getElem? hj) hpc i)

theorem Inv.setPhase (h : Inv g s) {p : Phase} (hp : seeded g p = seeded g s.phase)
    (hns : ∀ i, p ≠ .seeding i) : Inv g { s with phase := p } where
  deps := h.deps
  claimed v hv := by
    refine (h.claimed v hv).trans (if_congr ?_ rfl rfl)
    simp only [Due, hp]
  seeding i hi := absurd hi (hns i)
  nodes := h.nodes
  pcs := h.pcs
  ordered := h.ordered
  remaining := h.remaining

theorem inv_step (hw : Wired g) (hsmall : ∀ v, inDegree g v < 2 ^ 32) (n : ℕ) (s : State)
    (a : Action) (s' : State) (h : Inv g s) (hs : step g n s a = some s') : Inv g s' := by
  cases a with
  | seed =>
    cases hp : s.phase with
    | seeding i =>
      simp only [step, hp] at hs
      by_cases hi : i < g.size
      · rw [if_pos hi] at hs
        exact Option.some.inj hs ▸ h.seed hw hsmall hp hi
      · rw [if_neg hi] at hs
        refine Option.some.inj hs ▸ h.setPhase ?_ (by simp)
        have hle := (h.seeding i hp).1
        simp only [seeded, hp]
        omega
    | running => simp [step, hp] at hs
    | returned => simp [step, hp] at hs
  | start j =>
    cases hp : s.phase with
    | running =>
      cases hj : s.tasks[j]? with
      | none => simp [step, hp, hj] at hs
      | some t =>
        simp only [step, hp, hj] at hs
        split_ifs at hs with hq
        cases hs
        exact (h.core.start hj hq.1).inv fun i hi => absurd (hp.symm.trans hi) (by simp)
    | seeding i => simp [step, hp] at hs
    | returned => simp [step, hp] at hs
  | task j =>
    obtain ⟨t, hj, ht⟩ := Option.bind_eq_some_iff.mp hs
    exact taskStep_inv h hw hsmall hj ht
  | ret =>
    simp only [step] at hs
    split_ifs at hs with hr
    cases hs
    refine h.setPhase ?_ (by simp)
    simp only [seeded, hr.1]

theorem inv_of_run (hw : Wired g) (hsmall : ∀ v, inDegree g v < 2 ^ 32) {n : ℕ}
    {tr : List (State × Action)} (h : Run (machine g n) tr s) : Inv g s :=
  Run.invariant (inv_init hw n) (inv_step hw hsmall n) h

end TaskScheduler.Dag
