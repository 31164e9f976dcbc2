import TaskScheduler.DagSeeding

/-!
# The nodes that the seeding loop submits

On a scheduler that runs tasks while the loop goes on, the loop submits the right nodes exactly
when no task counts a node down before the loop has read its counter.
-/
namespace TaskScheduler.Dag
open Transition Relation Precedence

/-- The node on whose counter the step makes a `fetch_sub`. -/
def counted (g : Graph) (s : Eager) : EagerAction → Option ℕ
  | .task j => s.state.tasks[j]?.bind (Task.counts g)
  | _ => none

/-- The node whose counter the step, a `fetch_sub` of a task, brings to zero. -/
def zeroed (g : Graph) (s : Eager) (a : EagerAction) : Option ℕ :=
  (counted g s a).filter fun v => s.state.depsRemaining v = 1

/-- The step, a `fetch_sub` of a task, brings to zero the counter of a node that the seeding loop
has not read yet. -/
def early (g : Graph) (s : Eager) (a : EagerAction) : Bool :=
  (zeroed g s a).any fun v => seeded g s.state.phase ≤ v

/-- The seeding loop reads the counter of a node of `2^32` edges, which the build phase has
wrapped to zero, before any `fetch_sub` on it. -/
def wrapped (g : Graph) (s : Eager) : EagerAction → Bool
  | .read =>
    match s.state.phase with
    | .seeding i => decide (inDegree g i = 2 ^ 32 ∧ decremented g s.state.tasks i = 0)
    | _ => false
  | _ => false

/-- The node whose counter the seeding loop reads as zero with the step. -/
def readZero (g : Graph) (s : Eager) : EagerAction → Option ℕ
  | .read =>
    match s.state.phase with
    | .seeding i => if i < g.size ∧ s.state.depsRemaining i = 0 then some i else none
    | _ => none
  | _ => none

/-- How many of the first `m` decrements of a counter that starts at `d` find it at one. -/
def hits (d m : ℕ) : ℕ := ((Finset.range m).filter fun k : ℕ => int32 (d - k) = 1).card

variable {g : Graph} {s s' : Eager} {a : EagerAction} {tr : List (Eager × EagerAction)}

theorem hits_succ (d m : ℕ) : hits d (m + 1) = hits d m + if int32 (d - m) = 1 then 1 else 0 := by
  unfold hits
  rw [Finset.range_add_one, Finset.filter_insert]
  split_ifs
  · rw [Finset.card_insert_of_notMem (by simp)]
  · rfl

/-- What a step does to the counter of `w`, to the decrements on it, and to the submissions
of `w`. -/
theorem eager_counts (he : EagerEffect g s a s') (w : ℕ) :
    s'.state.depsRemaining w = (if counted g s a = some w then int32 (s.state.depsRemaining w - 1)
        else s.state.depsRemaining w) ∧
      decremented g s'.state.tasks w = decremented g s.state.tasks w +
        (if counted g s a = some w then 1 else 0) ∧
      total (Task.claims g w) s'.state.tasks + s'.claim w =
        total (Task.claims g w) s.state.tasks + s.claim w + (readZero g s a).toList.count w +
          (if counted g s a = some w ∧ s.state.depsRemaining w = 1 then 1 else 0) := by
  cases he with
  | @read i hp hn hi =>
    refine ⟨by simp [counted], by simp [counted], ?_⟩
    by_cases hd : s.state.depsRemaining i = 0
    · simp [counted, readZero, hp, hn, hi, hd, Eager.claim, List.count_singleton]
    · simp [counted, readZero, hp, hn, hd, Eager.claim]
  | run hp hn hi =>
    refine ⟨by simp [counted], by simp [counted], ?_⟩
    simp [counted, readZero, hp, hn, hi.not_gt, Eager.claim]
  | @submit v hv =>
    refine ⟨by simp [counted, submitNode], ?_, ?_⟩
    · simp [counted, submitNode, decremented, total_append, made_queued]
    · simp [counted, readZero, submitNode, total_append, claims_queued, Eager.claim, hv]
  | @start j t hj hq =>
    have hnone : t.counts g = none := by simp [Task.counts, hq]
    have hcounts : Counts g s.state (s.state.setPc j t .fn) t w :=
      .setPc hj hnone (fun w => by simp [Task.made, Task.progress, hq]) (by simp [Task.submits, hq]) w
    refine ⟨by simpa [counted, hnone] using hcounts.deps,
      by simpa [counted, hnone] using hcounts.made, ?_⟩
    have hclaims := hcounts.claims
    simp only [hnone, reduceCtorEq, false_and, if_false] at hclaims
    simp only [counted, readZero, Option.toList_none, List.count_nil, reduceCtorEq, false_and,
      if_false]
    exact congrArg (· + s.claim w) hclaims
  | @task j t u hj hu =>
    have hcounts := taskStep_counts hj hu w
    have hcounted : counted g s (.task j) = t.counts g := by simp [counted, hj]
    rw [hcounted]
    refine ⟨hcounts.deps, hcounts.made, ?_⟩
    have hclaims := hcounts.claims
    simp only [readZero, Option.toList_none, List.count_nil, Eager.claim]
    omega
  | ret hp hd => exact ⟨by simp [counted], by simp [counted], by simp [counted, readZero, Eager.claim]⟩

/-- What holds along every run: the counters, the submissions and the runs of the nodes, told
from the steps taken. -/
structure Tally (g : Graph) (tr : List (Eager × EagerAction)) (s : Eager) : Prop where
  deps : ∀ v, s.state.depsRemaining v = int32 (inDegree g v - decremented g s.state.tasks v)
  claims : ∀ v, total (Task.claims g v) s.state.tasks + s.claim v =
    (log (readZero g) tr).count v + hits (inDegree g v) (decremented g s.state.tasks v)
  zero : ∀ v, 0 < inDegree g v → inDegree g v ≤ decremented g s.state.tasks v →
    ∃ e ∈ tr, zeroed g e.1 e.2 = some v ∧ seeded g e.1.state.phase ≤ seeded g s.state.phase
  roots : log root tr ++ s.pick.toList = log (readZero g) tr
  bound : ∀ i, s.state.phase = .seeding i → i ≤ g.size
  pick : ∀ v, s.pick = some v → ∃ i, s.state.phase = .seeding i
  ran : ∀ v, (log eagerRan tr).count v = total (Task.ran v) s.state.tasks
  done : s.state.phase = .returned → ∀ t ∈ s.state.tasks, t.pc = .done

theorem tally_init (hw : Wired g) : Tally g [] (eager g).init where
  deps v := by
    rw [show (eager g).init.state.depsRemaining v = g.depsRemaining v from rfl, hw.counted v]
    simp [decremented, total, eager, machine]
  claims v := by simp [total, hits, decremented, eager, machine, Eager.claim]
  zero v h0 hle := by
    simp only [eager, machine, decremented, total, List.map_nil, List.sum_nil] at hle
    omega
  roots := rfl
  bound i hi := by
    obtain rfl : 0 = i := by simpa [eager, machine] using hi
    exact Nat.zero_le _
  pick v hv := by cases hv
  ran v := rfl
  done hr := by cases hr

theorem Tally.seeded_le (h : Tally g tr s) (he : EagerEffect g s a s') :
    seeded g s.state.phase ≤ seeded g s'.state.phase := by
  cases he with
  | read hp => simp [hp, seeded]
  | run hp => simpa [hp, seeded] using h.bound _ hp
  | task hj hu => rw [taskStep_phase hu]
  | ret hp => simp [hp, seeded]
  | _ => exact le_rfl

/-- The decrement that brings the number of decrements on a counter to the number of edges finds
the counter at one. -/
theorem Tally.zeroed_of (h : Tally g tr s) {v : ℕ} (hc : counted g s a = some v)
    (hd : inDegree g v = decremented g s.state.tasks v + 1) : zeroed g s a = some v := by
  have hone : s.state.depsRemaining v = 1 := by
    rw [h.deps v, hd]
    push_cast
    rw [add_sub_cancel_left]
    rfl
  simp [zeroed, hc, hone]

theorem Tally.roots_step (h : Tally g tr s) (he : EagerEffect g s a s') :
    log root (tr ++ [(s, a)]) ++ s'.pick.toList = log (readZero g) (tr ++ [(s, a)]) := by
  rw [log_snoc, log_snoc, ← h.roots]
  cases he with
  | read hp hn hi => simp [root, readZero, hp, hn, hi, apply_ite Option.toList]
  | run hp hn hi => simp [root, readZero, hp, hn, hi.not_gt]
  | submit hv => simp [root, readZero, hv]
  | _ => simp [root, readZero]

theorem Tally.done_step (h : Tally g tr s) (he : EagerEffect g s a s')
    (hp : s'.state.phase = .returned) : ∀ t ∈ s'.state.tasks, t.pc = .done := by
  cases he with
  | ret _ hd => exact hd
  | submit hv =>
    obtain ⟨i, hi⟩ := h.pick _ hv
    exact absurd (hi.symm.trans hp) (by simp)
  | @start j t hj hq =>
    have hd := h.done hp t (List.mem_of_getElem? hj)
    rw [hq] at hd
    cases hd
  | @task j t w hj hu =>
    have hd := h.done ((taskStep_phase hu).symm.trans hp) t (List.mem_of_getElem? hj)
    simp [taskStep, hd] at hu
  | _ => cases hp

theorem Tally.pick_step (h : Tally g tr s) (he : EagerEffect g s a s') {v : ℕ}
    (hv : s'.pick = some v) : ∃ i, s'.state.phase = .seeding i := by
  cases he with
  | read => exact ⟨_, rfl⟩
  | start => exact h.pick v hv
  | task hj hu =>
    rw [taskStep_phase hu]
    exact h.pick v hv
  | ret hp =>
    obtain ⟨i, hi⟩ := h.pick v hv
    exact absurd (hp.symm.trans hi) (by simp)
  | _ => cases hv

theorem Tally.bound_step (h : Tally g tr s) (he : EagerEffect g s a s') {i : ℕ}
    (hi : s'.state.phase = .seeding i) : i ≤ g.size := by
  cases he with
  | @read k hp hn hk =>
    obtain rfl : k + 1 = i := by simpa using hi
    exact hk
  | submit => exact h.bound i hi
  | start => exact h.bound i hi
  | task hj hu => exact h.bound i ((taskStep_phase hu).symm.trans hi)
  | _ => cases hi

theorem Tally.step (h : Tally g tr s) (he : EagerEffect g s a s') :
    Tally g (tr ++ [(s, a)]) s' := by
  have hcounts := eager_counts he
  have hseeded := h.seeded_le he
  refine ⟨fun v => ?_, fun v => ?_, fun v h0 hle => ?_, h.roots_step he, fun i => h.bound_step he,
    fun v => h.pick_step he, fun v => ?_, h.done_step he⟩
  · obtain ⟨hdeps, hdec, -⟩ := hcounts v
    rw [hdeps, hdec, h.deps v]
    split_ifs
    · rw [int32_sub]
      push_cast
      ring_nf
    · rfl
  · obtain ⟨-, hdec, hclaims⟩ := hcounts v
    have hold := h.claims v
    have hone := h.deps v
    rw [hclaims, log_snoc, List.count_append, hdec]
    by_cases hc : counted g s a = some v
    · simp only [hc, true_and, if_true, hits_succ, ← hone]
      omega
    · simp only [hc, false_and, if_false, Nat.add_zero]
      omega
  · obtain ⟨-, hdec, -⟩ := hcounts v
    rcases Nat.lt_or_ge (decremented g s.state.tasks v) (inDegree g v) with hlt | hge
    · have hc : counted g s a = some v := by
        by_contra hc
        rw [if_neg hc] at hdec
        omega
      rw [if_pos hc] at hdec
      exact ⟨(s, a), by simp, h.zeroed_of hc (by omega), hseeded⟩
    · obtain ⟨e, he, hz, hle⟩ := h.zero v h0 hge
      exact ⟨e, by simp [he], hz, hle.trans hseeded⟩
  · rw [log_snoc, List.count_append, h.ran v]
    exact (eagerRan_step he v).symm

theorem tally_of_run (hw : Wired g) (h : Run (eager g) tr s) : Tally g tr s :=
  Run.history (tally_init hw) (fun _ _ _ _ ih hs => ih.step (eagerStep_effect hs)) h

theorem early_iff : early g s a = true ↔
    ∃ v, counted g s a = some v ∧ s.state.depsRemaining v = 1 ∧ seeded g s.state.phase ≤ v := by
  simp [early, zeroed, Option.any_eq_true]

theorem wrapped_iff : wrapped g s a = true ↔ a = .read ∧ ∃ i, s.state.phase = .seeding i ∧
    inDegree g i = 2 ^ 32 ∧ decremented g s.state.tasks i = 0 := by
  cases a with
  | read => cases hp : s.state.phase <;> simp [wrapped, hp]
  | _ => simp [wrapped]

theorem premature_iff : premature g s a = true ↔ a = .read ∧ ∃ i, s.state.phase = .seeding i ∧
    s.pick = none ∧ i < g.size ∧ s.state.depsRemaining i = 0 ∧ inDegree g i ≠ 0 := by
  cases a with
  | read => cases hp : s.state.phase <;> simp [premature, hp]
  | _ => simp [premature]

theorem lt_size_of_inDegree (hw : Wired g) {v : ℕ} (h : inDegree g v ≠ 0) : v < g.size := by
  obtain ⟨u, -, hu⟩ := Finset.exists_ne_zero_of_sum_ne_zero h
  exact (hw.bounded u v (edge_iff.mpr (Nat.pos_of_ne_zero hu))).2

/-- The counter of a node with an edge is zero after the last decrement, or where the build phase
has wrapped it. -/
theorem Seeded.zero_cases (h : Seeded g s) {v : ℕ} (hsmall : inDegree g v ≤ 2 ^ 32)
    (hd : s.state.depsRemaining v = 0) :
    inDegree g v ≤ decremented g s.state.tasks v ∨
      inDegree g v = 2 ^ 32 ∧ decremented g s.state.tasks v = 0 := by
  have hle := decremented_le h.core.nodup h.core.nodes v
  rw [h.core.deps v, int32_eq_iff_emod le_rfl (by norm_num)] at hd
  omega

/-- Where no task counts a node down to zero before the loop has read it, and the loop reads no
wrapped counter, it finds no node with an edge at zero. -/
theorem not_premature (hw : Wired g) (hsmall : ∀ v, inDegree g v ≤ 2 ^ 32)
    (h : Run (eager g) tr s)
    (hC : ∀ e ∈ tr, early g e.1 e.2 = false ∧ wrapped g e.1 e.2 = false) :
    ∀ e ∈ tr, premature g e.1 e.2 = false := by
  induction h with
  | nil => simp
  | @snoc tr u v a prior last ih =>
    have hpre : ∀ e ∈ tr, premature g e.1 e.2 = false :=
      ih fun e he => hC e (List.mem_append_left _ he)
    intro e he
    rcases List.mem_append.mp he with he | he
    · exact hpre e he
    · rw [List.mem_singleton.mp he]
      by_contra hprem
      obtain ⟨rfl, i, hp, hn, hi, hd, h0⟩ := premature_iff.mp (by simpa using hprem)
      have hok := (eagerRun_of_run hw hsmall prior hpre).ok
      rcases hok.zero_cases (hsmall i) hd with hlast | hwrap
      · obtain ⟨e', he', hz, hle⟩ :=
          (tally_of_run hw prior).zero i (Nat.pos_of_ne_zero h0) hlast
        have hearly : early g e'.1 e'.2 = true := by
          rw [hp] at hle
          simp only [early, hz, Option.any_some, decide_eq_true_eq]
          exact hle
        rw [(hC e' (List.mem_append_left _ he')).1] at hearly
        cases hearly
      · have hwrapped := wrapped_iff.mpr ⟨rfl, i, hp, hwrap⟩
        rw [(hC (u, .read) (by simp)).2] at hwrapped
        cases hwrapped

/-- A node counted down to zero stays unread as long as the loop finds no node with an edge at
zero. -/
theorem unread_step (hw : Wired g) (hsmall : ∀ v, inDegree g v ≤ 2 ^ 32) {v : ℕ}
    (h0 : inDegree g v ≠ 0)
    (h : Seeded g s ∧ seeded g s.state.phase ≤ v ∧ decremented g s.state.tasks v = inDegree g v)
    (hC : premature g s a = false) (he : EagerEffect g s a s') :
    Seeded g s' ∧ seeded g s'.state.phase ≤ v ∧
      decremented g s'.state.tasks v = inDegree g v := by
  obtain ⟨hok, hle, hd⟩ := h
  have hok' := seeded_step hw hsmall hok hC he
  refine ⟨hok', ?_, ?_⟩
  · cases he with
    | @read i hp hn hi =>
      rw [hp] at hle
      refine Nat.lt_of_le_of_ne hle fun hiv => ?_
      subst hiv
      have hdeps : s.state.depsRemaining i = 0 := by
        rw [hok.core.deps i, hd, sub_self]
        rfl
      exact h0 (mature hC hp hn hi hdeps)
    | run hp hn hi =>
      rw [hp] at hle
      exact hi.trans hle
    | task hj hu =>
      rw [taskStep_phase hu]
      exact hle
    | ret hp =>
      rw [hp] at hle
      exact hle
    | _ => exact hle
  · have hmax := decremented_le hok'.core.nodup hok'.core.nodes v
    have hstep := (eager_counts he v).2.1
    omega

/-- In a run to the end without a read that finds a node with an edge at zero, no task counts a
node down to zero before the loop has read it. -/
theorem not_early (hw : Wired g) (hsmall : ∀ v, inDegree g v ≤ 2 ^ 32) (h : Run (eager g) tr s)
    (hC : ∀ e ∈ tr, premature g e.1 e.2 = false) (hr : s.state.phase = .returned)
    {u : Eager} (hmem : (u, a) ∈ tr) : early g u a = false := by
  by_contra hearly
  obtain ⟨v, hc, hone, hle⟩ := early_iff.mp (by simpa using hearly)
  obtain ⟨pre, post, rfl⟩ := List.append_of_mem hmem
  obtain ⟨hpre, w, hw', hpost⟩ := Steps.split_at h
  have hok := (eagerRun_of_run hw hsmall hpre fun e he => hC e (by simp [he])).ok
  have he := eagerStep_effect hw'
  have hCu := hC (u, a) (by simp)
  have hok' := seeded_step hw hsmall hok hCu he
  have hdec := (eager_counts he v).2.1
  have hmax := decremented_le hok'.core.nodup hok'.core.nodes v
  have hdeg : inDegree g v = decremented g w.state.tasks v := by
    have hlt := hsmall v
    rw [if_pos hc] at hdec
    rw [hok.core.deps v, int32_eq_one_iff (by omega) (by omega)] at hone
    omega
  have h0 : inDegree g v ≠ 0 := by
    rw [hdeg, hdec, if_pos hc]
    exact Nat.succ_ne_zero _
  have hphase : seeded g w.state.phase = seeded g u.state.phase := by
    cases he with
    | task hj hu => rw [taskStep_phase hu]
    | _ => cases hc
  obtain ⟨-, hend, -⟩ := Steps.invariant_of (C := fun s a => premature g s a = false)
    (fun _ _ _ hu hC hs => unread_step hw hsmall h0 hu hC (eagerStep_effect hs)) hpost
    (fun e he => hC e (by simp [he])) ⟨hok', hphase.trans_le hle, hdeg.symm⟩
  rw [hr] at hend
  exact (lt_size_of_inDegree hw h0).not_ge hend

/-- A wrapped counter that the loop reads is a node with an edge found at zero. -/
theorem not_wrapped (hw : Wired g) (h : Run (eager g) tr s)
    (hC : ∀ e ∈ tr, premature g e.1 e.2 = false) {u : Eager} (hmem : (u, a) ∈ tr) :
    wrapped g u a = false := by
  by_contra hwrap
  obtain ⟨rfl, i, hp, hdeg, hdec⟩ := wrapped_iff.mp (by simpa using hwrap)
  obtain ⟨pre, post, rfl⟩ := List.append_of_mem hmem
  obtain ⟨hpre, w, hw', -⟩ := Steps.split_at h
  have h0 : inDegree g i ≠ 0 := by omega
  have hn : u.pick = none := by
    have he : EagerEffect g u .read w := eagerStep_effect hw'
    cases he with
    | read _ hn => exact hn
    | run _ hn => exact hn
  have hdeps : u.state.depsRemaining i = 0 := by
    rw [(tally_of_run hw hpre).deps i, hdeg, hdec]
    rfl
  have hprem := premature_iff.mpr ⟨rfl, i, hp, hn, lt_size_of_inDegree hw h0, hdeps, h0⟩
  rw [hC (u, .read) hmem] at hprem
  cases hprem

/-- The outcome of an `execute` that has returned: the loop has submitted the nodes without an
edge, in their order, and every node has run once. -/
structure Seeds (g : Graph) (tr : List (Eager × EagerAction)) (s : Eager) : Prop where
  roots : log root tr = rootsBelow g g.size
  ran : (log eagerRan tr).Perm (List.range g.size)
  remaining : s.state.remainingNodes = 0

theorem Tally.pick_none (h : Tally g tr s) (hr : s.state.phase = .returned) : s.pick = none := by
  cases hv : s.pick with
  | none => rfl
  | some v =>
    obtain ⟨i, hi⟩ := h.pick v hv
    exact absurd (hi.symm.trans hr) (by simp)

theorem Tally.ran_perm (h : Tally g tr s) (hr : s.state.phase = .returned) :
    (log eagerRan tr).Perm (s.state.tasks.map Task.node) :=
  List.perm_iff_count.mpr fun v => (h.ran v).trans (count_node (h.done hr) v).symm

/-- Without a premature read the seeding loop submits the nodes without an edge, and every node
runs once. -/
theorem seeds_of_mature (hw : Wired g) (hsmall : ∀ v, inDegree g v ≤ 2 ^ 32)
    (hacyclic : ∀ v, ¬ TransGen (Edge g) v v) (h : Run (eager g) tr s)
    (hC : ∀ e ∈ tr, premature g e.1 e.2 = false) (hr : s.state.phase = .returned) :
    Seeds g tr s := by
  have hrun := eagerRun_of_run hw hsmall h hC
  have htally := tally_of_run hw h
  have hn := htally.pick_none hr
  have hclaim : s.claim = fun _ => 0 := by
    funext v
    simp [Eager.claim, hn]
  have hinv : Inv g s.state :=
    (hclaim ▸ hrun.ok.core).inv fun i hi => absurd (hr.symm.trans hi) (by simp)
  have hf : Finished s.state := ⟨fun i => by simp [hr], htally.done hr⟩
  refine ⟨?_, ?_, (remaining_eq_zero_iff hw hinv hf).mpr hacyclic⟩
  · simpa [hn, hr, seeded] using hrun.roots
  · refine (htally.ran_perm hr).trans
      ((List.perm_ext_iff_of_nodup hinv.nodup List.nodup_range).mpr fun v => ?_)
    rw [mem_nodes_iff hw hinv hf v, List.mem_range, and_iff_left_iff_imp]
    rintro - ⟨c, hc, -⟩
    exact hacyclic c hc

/-- A read that finds a node with an edge at zero makes the loop submit that node. -/
theorem Seeds.mature (hw : Wired g) (h : Run (eager g) tr s) (hr : s.state.phase = .returned)
    (hS : Seeds g tr s) : ∀ e ∈ tr, premature g e.1 e.2 = false := by
  intro e he
  by_contra hprem
  obtain ⟨ha, i, hp, -, hi, hd, h0⟩ := premature_iff.mp (by simpa using hprem)
  have htally := tally_of_run hw h
  have hmem : i ∈ log (readZero g) tr := by
    refine List.mem_filterMap.mpr ⟨e, he, ?_⟩
    simp [ha, readZero, hp, hi, hd]
  rw [← htally.roots, htally.pick_none hr, Option.toList_none, List.append_nil, hS.roots] at hmem
  exact h0 (by simpa using (List.mem_filter.mp hmem).2)

/-- Beyond `2^32` edges two decrements find the counter at one. -/
theorem two_le_hits {d : ℕ} (h : 2 ^ 32 < d) : 2 ≤ hits d d := by
  have hsub : ({d - 1, d - 1 - 2 ^ 32} : Finset ℕ) ⊆
      (Finset.range d).filter fun k : ℕ => int32 (d - k) = 1 := by
    intro k hk
    have hk' : k = d - 1 ∨ k = d - 1 - 2 ^ 32 := by simpa using hk
    rw [Finset.mem_filter, Finset.mem_range, int32_eq_iff_emod (by norm_num) (by norm_num)]
    omega
  have hcard := Finset.card_le_card hsub
  rwa [Finset.card_pair (by omega)] at hcard

/-- Every node runs once only where no node has more than `2^32` edges: a wrapped counter passes
one twice, and each time a task submits the node. -/
theorem Seeds.inDegree_le (hw : Wired g) (h : Run (eager g) tr s) (hr : s.state.phase = .returned)
    (hS : Seeds g tr s) (v : ℕ) : inDegree g v ≤ 2 ^ 32 := by
  by_contra hlt
  have hv : v < g.size := lt_size_of_inDegree hw (by omega)
  have htally := tally_of_run hw h
  have hperm := (htally.ran_perm hr).symm.trans hS.ran
  have hnodup := hperm.nodup_iff.mpr List.nodup_range
  have hnodes : ∀ t ∈ s.state.tasks, t.node < g.size := fun t ht =>
    List.mem_range.mp (hperm.mem_iff.mp (List.mem_map_of_mem ht))
  have hdec : decremented g s.state.tasks v = inDegree g v := by
    rw [decremented_eq hnodup hnodes]
    refine Finset.sum_congr rfl fun u hu => ?_
    obtain ⟨t, ht, rfl⟩ := List.mem_map.mp (hperm.mem_iff.mpr (List.mem_range.mpr
      (Finset.mem_range.mp hu)))
    simp [progressOf, find_of_nodup hnodup ht, Task.progress, htally.done hr t ht, edges]
  have hclaims : total (Task.claims g v) s.state.tasks = 1 := by
    have hone : (log eagerRan tr).count v = 1 := (hS.ran.count_eq v).trans
      (List.count_eq_one_of_mem List.nodup_range (List.mem_range.mpr hv))
    rw [← hone, htally.ran v]
    refine congrArg List.sum (List.map_congr_left fun t ht => ?_)
    have hd := htally.done hr t ht
    simp [claims_of_done hd, Task.ran, hd, TaskPc.returned]
  have hsum := htally.claims v
  have htwo := two_le_hits (not_le.mp hlt)
  simp only [Eager.claim, htally.pick_none hr, reduceCtorEq, if_false, hclaims, hdec] at hsum
  omega

/-- As long as no task brings to zero the counter of a node that the seeding loop has not read
yet, and the loop reads no wrapped counter, the loop submits the nodes that have no `depends_on`
edge and no others, and the run is bounded and goes on until `execute` returns. An `execute` that
has returned has submitted these nodes and run every node once exactly when there was no such
step and no node has more than `2^32` edges. -/
theorem seeds_roots {ops : List BuildOp} (hb : build ops = some g)
    (hacyclic : ∀ v, ¬ TransGen (Edge g) v v) (h : Run (eager g) tr s) :
    ((∀ v, inDegree g v ≤ 2 ^ 32) →
      (∀ e ∈ tr, early g e.1 e.2 = false ∧ wrapped g e.1 e.2 = false) →
      log root tr ++ s.pick.toList = rootsBelow g (seeded g s.state.phase) ∧
        tr.length < eagerBound g ∧
        (s.state.phase ≠ .returned → ∃ a s', eagerStep g s a = some s')) ∧
    (s.state.phase = .returned → (Seeds g tr s ↔ (∀ v, inDegree g v ≤ 2 ^ 32) ∧
      ∀ e ∈ tr, early g e.1 e.2 = false ∧ wrapped g e.1 e.2 = false)) := by
  have hw := wired_of_build hb
  refine ⟨fun hsmall hC => ?_, fun hr => ⟨fun hS => ?_, fun ⟨hsmall, hC⟩ => ?_⟩⟩
  · have hrun := eagerRun_of_run hw hsmall h (not_premature hw hsmall h hC)
    exact ⟨hrun.roots, hrun.length.trans hrun.ok.spent_le, hrun.ok.progress⟩
  · have hsmall := hS.inDegree_le hw h hr
    have hmature := hS.mature hw h hr
    exact ⟨hsmall, fun e he =>
      ⟨not_early hw hsmall h hmature hr he, not_wrapped hw h hmature he⟩⟩
  · exact seeds_of_mature hw hsmall hacyclic h (not_premature hw hsmall h hC) hr

/-- Node `1` depends on node `0`. -/
def edgeOps : List BuildOp := [.node, .node, .dependsOn 1 [0]]

theorem acyclic_of_lt (h : ∀ u v, Edge g u v → u < v) (v : ℕ) : ¬ TransGen (Edge g) v v := by
  have hlt : ∀ {u w}, TransGen (Edge g) u w → u < w := by
    intro u w huw
    induction huw with
    | single he => exact h _ _ he
    | tail _ he ih => exact ih.trans (h _ _ he)
  exact fun hv => (hlt hv).false

theorem exists_edge : ∃ g, build edgeOps = some g ∧ (∀ v, inDegree g v < 2 ^ 32) ∧
    ∀ v, ¬ TransGen (Edge g) v v := by
  have hen : (build edgeOps).any fun g => decide (g.size = 2 ∧
      (∑ u ∈ Finset.range g.size, (g.successors u).length < 2 ^ 32) ∧
        ∀ u < 2, ∀ v ∈ g.successors u, u < v) := by decide
  obtain ⟨g, hg, hdec⟩ := (Option.any_eq_true _ _).mp hen
  obtain ⟨hsize, hlen, hlt⟩ := of_decide_eq_true hdec
  refine ⟨g, hg, fun v => (inDegree_le g v).trans_lt hlen, acyclic_of_lt fun u v he => ?_⟩
  exact hlt u (hsize ▸ ((wired_of_build hg).bounded u v he).1) v he

/-- The loop passes both nodes before the first task starts. -/
def calmSchedule : List EagerAction := List.flatten
  [[.read, .submit, .read, .read, .start 0], List.replicate 5 (.task 0), [.start 1],
    List.replicate 3 (.task 1), [.ret]]

theorem seeds_roots_calm :
    ∃ g s, build edgeOps = some g ∧ exec (eager g) (eager g).init calmSchedule = some s ∧
      s.state.phase = .returned ∧
      Seeds g (record (eager g) (eager g).init calmSchedule) s := by
  obtain ⟨g, hg, hsmall, hacyclic⟩ := exists_edge
  have hen : (build edgeOps).all fun g =>
      ((record (eager g) (eager g).init calmSchedule).all fun e =>
        !early g e.1 e.2 && !wrapped g e.1 e.2) &&
        (exec (eager g) (eager g).init calmSchedule).any fun s =>
          decide (s.state.phase = .returned) := by decide
  rw [hg] at hen
  obtain ⟨hcalm, hrun⟩ := (Bool.and_eq_true _ _).mp hen
  obtain ⟨s, hs, hend⟩ := (Option.any_eq_true _ _).mp hrun
  have hret := of_decide_eq_true hend
  refine ⟨g, s, hg, hs, hret, ((seeds_roots hg hacyclic (exec_steps hs)).2 hret).mpr
    ⟨fun v => (hsmall v).le, fun e he => ?_⟩⟩
  simpa using List.all_eq_true.mp hcalm e he

/-- Node `0` runs, and its task submits node `1`, before the loop reads the counter of node `1`. -/
def racingSchedule : List EagerAction := List.flatten
  [[.read, .submit, .start 0], List.replicate 5 (.task 0), [.read, .submit, .read, .start 1],
    List.replicate 3 (.task 1), [.start 2], List.replicate 3 (.task 2), [.ret]]

/-- The loop reads the counter of node `1` as zero and submits it a second time. -/
theorem seeded_twice :
    ∃ g s, build edgeOps = some g ∧ (∀ v, ¬ TransGen (Edge g) v v) ∧
      exec (eager g) (eager g).init racingSchedule = some s ∧ s.state.phase = .returned ∧
      inDegree g 1 = 1 ∧ log root (record (eager g) (eager g).init racingSchedule) = [0, 1] ∧
      log eagerRan (record (eager g) (eager g).init racingSchedule) = [0, 1, 1] ∧
      s.state.remainingNodes = -1 := by
  obtain ⟨g, hg, -, hacyclic⟩ := exists_edge
  have hen : (build edgeOps).all fun g => decide (inDegree g 1 = 1 ∧
      log root (record (eager g) (eager g).init racingSchedule) = [0, 1] ∧
      log eagerRan (record (eager g) (eager g).init racingSchedule) = [0, 1, 1]) &&
        (exec (eager g) (eager g).init racingSchedule).any fun s =>
          decide (s.state.phase = .returned ∧ s.state.remainingNodes = -1) := by decide
  rw [hg] at hen
  obtain ⟨hlogs, hrun⟩ := (Bool.and_eq_true _ _).mp hen
  obtain ⟨s, hs, hend⟩ := (Option.any_eq_true _ _).mp hrun
  obtain ⟨hdeg, hroot, hran⟩ := of_decide_eq_true hlogs
  obtain ⟨hret, hrem⟩ := of_decide_eq_true hend
  exact ⟨g, s, hg, hacyclic, hs, hret, hdeg, hroot, hran, hrem⟩

end TaskScheduler.Dag
