import TaskScheduler.Counting
import TaskScheduler.DagModel

/-!
# The graphs that the build phase makes

Every edge leads from a node of the graph to a node of the graph, and the counter of a
node is the number of its `depends_on` edges, as a 32-bit integer.
-/
namespace TaskScheduler.Dag

/-- The number of edges from `u` to `v`. -/
def edges (g : Graph) (u v : ℕ) : ℕ := (g.successors u).count v

/-- `v` depends on `u`. -/
def Edge (g : Graph) (u v : ℕ) : Prop := v ∈ g.successors u

/-- The number of `depends_on` edges of `v`, with multiplicity. -/
def inDegree (g : Graph) (v : ℕ) : ℕ := ∑ u ∈ Finset.range g.size, edges g u v

structure Wired (g : Graph) : Prop where
  bounded : ∀ u v, Edge g u v → u < g.size ∧ v < g.size
  counted : ∀ v, g.depsRemaining v = int32 (inDegree g v)

theorem inDegree_le (g : Graph) (v : ℕ) :
    inDegree g v ≤ ∑ u ∈ Finset.range g.size, (g.successors u).length :=
  Finset.sum_le_sum fun _ _ => List.count_le_length

theorem edge_iff {g : Graph} {u v : ℕ} : Edge g u v ↔ 0 < edges g u v := List.count_pos_iff.symm

theorem int32_add (x y : ℤ) : int32 (int32 x + y) = int32 (x + y) := Int.bmod_add_bmod

theorem int32_sub (x y : ℤ) : int32 (int32 x - y) = int32 (x - y) := Int.bmod_sub_bmod

theorem int32_eq_iff_emod {x : ℤ} {c : ℤ} (hc : 0 ≤ c) (hc' : c < 2 ^ 31) :
    int32 x = c ↔ x % 2 ^ 32 = c := by
  have hlt := Int.emod_lt_of_pos x (by norm_num : (0 : ℤ) < 2 ^ 32)
  have hnonneg := Int.emod_nonneg x (by norm_num : (2 ^ 32 : ℤ) ≠ 0)
  unfold int32
  rw [Int.bmod_def]
  norm_num at *
  split_ifs <;> omega

/-- Among the values below `2^32` a wrapped counter tells a small one from all others. -/
theorem int32_eq_iff {x : ℤ} {c : ℤ} (hx : 0 ≤ x) (hx' : x < 2 ^ 32) (hc : 0 ≤ c)
    (hc' : c < 2 ^ 31) : int32 x = c ↔ x = c := by
  rw [int32_eq_iff_emod hc hc', Int.emod_eq_of_lt hx hx']

theorem int32_eq_one_iff {x : ℤ} (hx : 1 ≤ x) (hx' : x ≤ 2 ^ 32) : int32 x = 1 ↔ x = 1 := by
  rw [int32_eq_iff_emod (by norm_num) (by norm_num)]
  omega

theorem int32_of_lt {x : ℤ} (hx : 0 ≤ x) (hx' : x < 2 ^ 31) : int32 x = x :=
  (int32_eq_iff hx (by omega) hx hx').mpr rfl

theorem wired_empty : Wired Graph.empty where
  bounded u v h := by simp [Edge, Graph.empty] at h
  counted v := by simp [inDegree, Graph.empty, int32]

theorem Wired.inDegree_node {g : Graph} (h : Wired g) (v : ℕ) : inDegree g.node v = inDegree g v := by
  have hnone : edges g g.size v = 0 := by
    by_contra hne
    exact (h.bounded _ _ (edge_iff.mpr (Nat.pos_of_ne_zero hne))).1.false
  have hsum := Finset.sum_range_succ (fun u => edges g u v) g.size
  rw [hnone, add_zero] at hsum
  exact hsum

theorem Wired.node {g : Graph} (h : Wired g) : Wired g.node where
  bounded u v he := by
    obtain ⟨hu, hv⟩ := h.bounded u v he
    exact ⟨Nat.lt_succ_of_lt hu, Nat.lt_succ_of_lt hv⟩
  counted v := by
    rw [h.inDegree_node v]
    exact h.counted v

theorem inDegree_dependsOn {g : Graph} {n p : ℕ} (hp : p < g.size) (v : ℕ) :
    inDegree (g.dependsOn n p) v = inDegree g v + if n = v then 1 else 0 := by
  have hsum := Counting.sum_update (Finset.mem_range.mpr hp) g.successors
    (g.successors p ++ [n]) (fun l => l.count v)
  have hcount : (g.successors p ++ [n]).count v =
      (g.successors p).count v + if n = v then 1 else 0 := by
    simp [List.count_singleton]
  rw [hcount] at hsum
  simp only [inDegree, edges, Graph.dependsOn]
  omega

theorem Wired.dependsOn {g : Graph} (h : Wired g) {n p : ℕ} (hn : n < g.size)
    (hp : p < g.size) : Wired (g.dependsOn n p) where
  bounded u v he := by
    simp only [Edge, Graph.dependsOn] at he
    rcases eq_or_ne u p with rfl | hne
    · simp only [Function.update_self, List.mem_append, List.mem_singleton] at he
      rcases he with he | rfl
      · exact h.bounded u v he
      · exact ⟨hp, hn⟩
    · rw [Function.update_of_ne hne] at he
      exact h.bounded u v he
  counted v := by
    rw [inDegree_dependsOn hp v]
    rcases eq_or_ne n v with rfl | hne
    · simp only [Graph.dependsOn, Function.update_self, if_true]
      rw [h.counted n, int32_add]
      push_cast
      rfl
    · simp only [Graph.dependsOn, Function.update_of_ne hne.symm, if_neg hne, add_zero]
      exact h.counted v

theorem Wired.dependsOnAll {g : Graph} (h : Wired g) {n : ℕ} {preds : List ℕ}
    (hn : n < g.size) (hp : ∀ p ∈ preds, p < g.size) : Wired (g.dependsOnAll n preds) := by
  induction preds generalizing g with
  | nil => exact h
  | cons p rest ih =>
    exact ih (h.dependsOn hn (hp p (by simp))) hn fun q hq => hp q (by simp [hq])

theorem Wired.apply {g g' : Graph} (h : Wired g) {op : BuildOp} (hop : g.apply op = some g') :
    Wired g' := by
  cases op with
  | node =>
    cases hop
    exact h.node
  | dependsOn n preds =>
    simp only [Graph.apply] at hop
    split_ifs at hop with hb
    cases hop
    exact h.dependsOnAll hb.1 hb.2

/-- Every graph that the build phase makes is wired. -/
theorem wired_of_build {ops : List BuildOp} {g : Graph} (h : build ops = some g) : Wired g := by
  have hfold : ∀ (ops : List BuildOp) (g g' : Graph), Wired g →
      ops.foldlM Graph.apply g = some g' → Wired g' := by
    intro ops
    induction ops with
    | nil =>
      intro g g' hg hfold
      cases hfold
      exact hg
    | cons op ops ih =>
      intro g g' hg hfold
      rw [List.foldlM_cons] at hfold
      obtain ⟨g₁, h₁, hrest⟩ := Option.bind_eq_some_iff.mp hfold
      exact ih g₁ g' (hg.apply h₁) hrest
  exact hfold ops _ _ wired_empty h

end TaskScheduler.Dag
