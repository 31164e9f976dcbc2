import TaskScheduler.DagInvariant

/-!
# Dependencies are respected

Every counter is the number of decrements still to come, no node is submitted twice, and a
node is submitted only after all its predecessors have returned, as long as the 32-bit
counters can hold the number of edges of a node.
-/
namespace TaskScheduler.Dag
open Transition Relation

/-- The `depends_on` edges of `v` whose predecessor has not yet made the matching decrement. -/
def undone (g : Graph) (s : State) (v : ℕ) : ℕ :=
  ∑ u ∈ Finset.range g.size, ((g.successors u).drop (progressOf g s.tasks u)).count v

variable {g : Graph} {s : State}

theorem Inv.undone_add (h : Inv g s) (v : ℕ) :
    undone g s v + decremented g s.tasks v = inDegree g v := by
  rw [decremented_eq h.nodup h.nodes, undone, ← Finset.sum_add_distrib]
  refine Finset.sum_congr rfl fun u _ => ?_
  rw [add_comm, ← List.count_append, List.take_append_drop]
  rfl

theorem Inv.counter (h : Inv g s) (v : ℕ) : s.depsRemaining v = int32 (undone g s v) := by
  have hadd := h.undone_add v
  rw [h.deps v]
  congr 1
  omega

/-- The predecessors of a submitted node, direct and transitive, have returned. -/
theorem Inv.returned (h : Inv g s) {u v : ℕ} (huv : TransGen (Edge g) u v) {t : Task}
    (ht : t ∈ s.tasks) (hv : t.node = v) : ∃ t' ∈ s.tasks, t'.node = u ∧ t'.pc.returned := by
  induction huv generalizing t with
  | single he =>
    obtain ⟨j, hj⟩ := List.getElem?_of_mem ht
    obtain ⟨i, _, t', hi, hrest⟩ := h.ordered j t hj _ (hv ▸ he)
    exact ⟨t', List.mem_of_getElem? hi, hrest⟩
  | tail _ he ih =>
    obtain ⟨j, hj⟩ := List.getElem?_of_mem ht
    obtain ⟨i, _, t', hi, hnode, _⟩ := h.ordered j t hj _ (hv ▸ he)
    exact ih (List.mem_of_getElem? hi) hnode

/-- Execution respects the dependencies of every graph whose nodes have fewer than `2^32`
`depends_on` edges: each counter is the number of matching decrements still to come (as an
`int32_t`, so exactly below `2^31`), no node is submitted twice, and every node submitted has
all its direct and transitive predecessors behind it. -/
theorem dependencies_respected {ops : List BuildOp} {n : ℕ} {tr : List (State × Action)}
    (hb : build ops = some g) (hsmall : ∀ v, inDegree g v < 2 ^ 32)
    (h : Run (machine g n) tr s) :
    (∀ v, s.depsRemaining v = int32 (undone g s v)) ∧
      (∀ v, inDegree g v < 2 ^ 31 → s.depsRemaining v = undone g s v) ∧
      (s.tasks.map Task.node).Nodup ∧
      ∀ t ∈ s.tasks, ∀ u, TransGen (Edge g) u t.node →
        ∃ t' ∈ s.tasks, t'.node = u ∧ t'.pc.returned := by
  have hinv := inv_of_run (wired_of_build hb) hsmall h
  refine ⟨hinv.counter, fun v hv => ?_, hinv.nodup, fun t ht u hu => hinv.returned hu ht rfl⟩
  have hadd := hinv.undone_add v
  rw [hinv.counter v]
  exact int32_of_lt (by omega) (by omega)

/-- Node `1` depends twice on node `0`, which has made one of the two decrements. -/
def chainOps : List BuildOp := [.node, .node, .dependsOn 1 [0, 0]]

def chainSchedule : List Action := List.flatten
  [List.replicate 3 .seed, [.start 0], List.replicate 2 (.task 0)]

theorem dependencies_respected_chain :
    ∃ g s, build chainOps = some g ∧ exec (machine g 1) (machine g 1).init chainSchedule = some s ∧
      s.depsRemaining 1 = undone g s 1 := by
  have hen : (build chainOps).any fun g =>
      decide (∑ u ∈ Finset.range g.size, (g.successors u).length < 2 ^ 31 ∧
        (exec (machine g 1) (machine g 1).init chainSchedule).isSome) := by decide
  obtain ⟨g, hg, hdec⟩ := (Option.any_eq_true _ _).mp hen
  obtain ⟨hlen, hrun⟩ := of_decide_eq_true hdec
  obtain ⟨s, hs⟩ := Option.isSome_iff_exists.mp hrun
  have hsmall : ∀ v, inDegree g v < 2 ^ 31 := fun v => (inDegree_le g v).trans_lt hlen
  refine ⟨g, s, hg, hs, ?_⟩
  exact (dependencies_respected hg (fun v => (hsmall v).trans (by norm_num)) (exec_steps hs)).2.1 1
    (hsmall 1)

/-- Node `0` depends on itself, node `1` depends `m` times on node `0`. -/
def repeatedOps (m : ℕ) : List BuildOp :=
  [.node, .node, .dependsOn 0 [0]] ++ List.replicate m (.dependsOn 1 [0])

theorem dependsOnAll_replicate (g : Graph) (n p m : ℕ) :
    (g.dependsOnAll n (List.replicate m p)).successors =
        Function.update g.successors p (g.successors p ++ List.replicate m n) ∧
      (g.dependsOnAll n (List.replicate m p)).size = g.size := by
  induction m generalizing g with
  | zero => simp [Graph.dependsOnAll]
  | succ m ih =>
    obtain ⟨hsucc, hsize⟩ := ih (g.dependsOn n p)
    rw [List.replicate_succ, Graph.dependsOnAll, hsucc, hsize]
    refine ⟨?_, rfl⟩
    simp only [Graph.dependsOn, Function.update_self, Function.update_idem]
    rw [List.append_assoc]
    rfl

theorem foldlM_replicate {g : Graph} {n p : ℕ} (hn : n < g.size) (hp : p < g.size) (m : ℕ) :
    (List.replicate m (.dependsOn n [p])).foldlM Graph.apply g =
      some (g.dependsOnAll n (List.replicate m p)) := by
  induction m generalizing g with
  | zero => rfl
  | succ m ih =>
    have hone : g.apply (.dependsOn n [p]) = some (g.dependsOn n p) :=
      if_pos ⟨hn, by simpa using hp⟩
    rw [List.replicate_succ, List.foldlM_cons, hone]
    exact ih (g := g.dependsOn n p) hn hp

/-- The graph that `repeatedOps` builds. -/
theorem exists_repeated (m : ℕ) : ∃ g, build (repeatedOps m) = some g ∧ g.size = 2 ∧
    g.successors 0 = 0 :: List.replicate m 1 ∧ g.successors 1 = [] := by
  obtain ⟨hsucc, hsize⟩ := dependsOnAll_replicate (Graph.empty.node.node.dependsOn 0 0) 1 0 m
  refine ⟨(Graph.empty.node.node.dependsOn 0 0).dependsOnAll 1 (List.replicate m 0), ?_, ?_, ?_, ?_⟩
  · rw [build, repeatedOps, List.foldlM_append]
    exact foldlM_replicate (by decide) (by decide) m
  · rw [hsize]
    rfl
  · rw [hsucc]
    simp [Graph.dependsOn, Graph.node, Graph.empty]
  · rw [hsucc]
    simp [Graph.dependsOn, Graph.node, Graph.empty]

/-- The counter of node `1` wraps to zero, so the seeding loop submits the node although its
predecessor waits for itself. -/
def wrappedSchedule : List Action := [.seed, .seed, .seed, .start 0]

theorem exec_wrapped (hw : Wired g) {m : ℕ} (hm : int32 m = 0) (hsize : g.size = 2)
    (h0 : g.successors 0 = 0 :: List.replicate m 1) (h1 : g.successors 1 = []) :
    exec (machine g 1) (machine g 1).init wrappedSchedule = some
      { (machine g 1).init with tasks := [⟨1, .fn⟩], phase := .running } := by
  have hd0 : g.depsRemaining 0 = 1 := by
    rw [hw.counted 0, inDegree, hsize]
    simp [Finset.sum_range_succ, edges, h0, h1, List.count_replicate, int32]
  have hd1 : g.depsRemaining 1 = 0 := by
    rw [hw.counted 1, inDegree, hsize, ← hm]
    simp [Finset.sum_range_succ, edges, h0, h1]
  simp [exec, wrappedSchedule, machine, step, hsize, hd0, hd1, submitNode, State.setPc,
    TaskPc.isBusy]

theorem exists_wrapped : ∃ m : ℕ, int32 m = 0 ∧ 0 < m := ⟨2 ^ 32, Int.bmod_self, by norm_num⟩

/-- With `2^32` edges from its predecessor a node starts although that one has not. -/
theorem dependency_missed :
    ¬ ∀ (ops : List BuildOp) (g : Graph) (n : ℕ) (tr : List (State × Action)) (s : State),
      build ops = some g → Run (machine g n) tr s →
        (∀ v, s.depsRemaining v = undone g s v) ∧ (s.tasks.map Task.node).Nodup ∧
          ∀ t ∈ s.tasks, ∀ u, TransGen (Edge g) u t.node →
            ∃ t' ∈ s.tasks, t'.node = u ∧ t'.pc.returned := by
  intro h
  obtain ⟨m, hm, hpos⟩ := exists_wrapped
  obtain ⟨g, hb, hsize, h0, h1⟩ := exists_repeated m
  have hs := exec_wrapped (wired_of_build hb) hm hsize h0 h1
  have hedge : Edge g 0 1 := by
    rw [Edge, h0]
    exact List.mem_cons_of_mem _ (List.mem_replicate.mpr ⟨hpos.ne', rfl⟩)
  obtain ⟨t, ht, hnode, _⟩ := (h _ g 1 _ _ hb (exec_steps hs)).2.2 ⟨1, .fn⟩ (by simp) 0
    (TransGen.single hedge)
  rw [List.mem_singleton.mp ht] at hnode
  cases hnode

end TaskScheduler.Dag
