import TaskScheduler.RingAnswers

/-!
# Tasks that `dequeue` does not see

Two runs in which a call of `dequeue` returns null although a task had been enqueued completely and
not been claimed at every moment of the call.
-/
namespace TaskScheduler.LockFree.Ring
open Transition

variable {θ α : Type*} [DecidableEq θ] {log2Ring : ℕ} {s : State θ α} {t : θ}

section Rounds
variable {task : α} {n m : ℕ}

/-- The positions from `n` to `m` are published, those of the next ring are free. -/
structure Between (log2Ring n m : ℕ) (s : State θ α) : Prop where
  tail : s.tail = n
  head : s.head = m
  filled : ∀ p, n ≤ p → p < m → s.sequence (p % kRingSize log2Ring) = p + 1
  free : ∀ p, m ≤ p → p < n + kRingSize log2Ring → s.sequence (p % kRingSize log2Ring) = p

theorem between_init (log2Ring : ℕ) : Between log2Ring 0 0 (machine θ α log2Ring).init where
  tail := rfl
  head := rfl
  filled p _ hp := absurd hp (Nat.not_lt_zero p)
  free p _ hp := by
    rw [Nat.mod_eq_of_lt (by omega)]
    rfl

theorem Between.enqueue (task : α) (h : Between log2Ring n m s) (ht : s.threads t = .idle)
    (hroom : m < n + kRingSize log2Ring) (hsmall : m + 1 < 2 ^ 64) (hle : n ≤ m) :
    ∃ s', exec (machine θ α log2Ring) s (enqueueCall t task) = some s' ∧
      Between log2Ring n (m + 1) s' ∧ s'.threads = s.threads ∧
      log published (record (machine θ α log2Ring) s (enqueueCall t task)) = [m] ∧
      log claimed (record (machine θ α log2Ring) s (enqueueCall t task)) = [] := by
  have hfree := h.free m le_rfl hroom
  have hhead : uint64 (m + 1) = m + 1 := uint64_of_lt hsmall
  refine ⟨_, by simp [exec, enqueueCall, machine, step, access, slot_eq, ht, h.head, hfree,
    State.goto, State.setPayload, State.setSequence, List.replicate, hhead]; rfl, ?_, ?_, ?_⟩
  · refine ⟨h.tail, rfl, fun p hlo hhi => ?_, fun p hlo hhi => ?_⟩
    · change Function.update s.sequence _ _ _ = _
      rcases Nat.lt_succ_iff_lt_or_eq.mp hhi with hlt | rfl
      · have hne : p % kRingSize log2Ring ≠ m % kRingSize log2Ring := by
          intro heq
          have hcases := mod_cases heq
          omega
        rw [Function.update_of_ne hne]
        exact h.filled p hlo hlt
      · rw [Function.update_self]
    · change Function.update s.sequence _ _ _ = _
      have hne : p % kRingSize log2Ring ≠ m % kRingSize log2Ring := by
        intro heq
        have hcases := mod_cases heq
        omega
      rw [Function.update_of_ne hne]
      exact h.free p (by omega) hhi
  · simp only [← ht, Function.update_eq_self]
  · simp [log, record, enqueueCall, machine, step, access, slot_eq, ht, h.head, hfree,
      State.goto, State.setPayload, State.setSequence, List.replicate, hhead, published, claimed]

theorem Between.dequeue (h : Between log2Ring n m s) (hlo : 1 ≤ log2Ring) (hhi : log2Ring ≤ 63)
    (ht : s.threads t = .idle) (hlt : n < m) (hsmall : n < 2 ^ 63)
    (hroom : m ≤ n + kRingSize log2Ring) : ∃ s', exec (machine θ α log2Ring) s (dequeueCall t) = some s' ∧
      Between log2Ring (n + 1) m s' ∧ s'.threads = s.threads ∧
      log published (record (machine θ α log2Ring) s (dequeueCall t)) = [] ∧
      log claimed (record (machine θ α log2Ring) s (dequeueCall t)) = [n] := by
  have hN := two_le_kRingSize hlo
  have hle := kRingSize_le hhi
  have hfull := h.filled n le_rfl hlt
  have hzero : diff (n + 1) n = 0 := (diff_eq_zero_iff (by omega) (by omega)).mpr rfl
  have htail : uint64 (n + 1) = n + 1 := uint64_of_lt (by omega)
  have hnext : uint64 (n + kRingSize log2Ring) = n + kRingSize log2Ring := uint64_of_lt (by omega)
  refine ⟨_, by simp [exec, dequeueCall, machine, step, access, slot_eq, ht, h.tail, hfull, hzero,
    State.goto, State.setPayload, State.setSequence, List.replicate, htail, hnext]; rfl, ?_, ?_, ?_⟩
  · refine ⟨rfl, h.head, fun p hlo hhi => ?_, fun p hlo hhi => ?_⟩
    · change Function.update s.sequence _ _ _ = _
      have hne : p % kRingSize log2Ring ≠ n % kRingSize log2Ring := by
        intro heq
        have hcases := mod_cases heq
        omega
      rw [Function.update_of_ne hne]
      exact h.filled p (by omega) hhi
    · change Function.update s.sequence _ _ _ = _
      by_cases heq : p % kRingSize log2Ring = n % kRingSize log2Ring
      · have hcases := mod_cases heq
        rw [heq, Function.update_self]
        omega
      · rw [Function.update_of_ne heq]
        have hne : p ≠ n + kRingSize log2Ring := by
          rintro rfl
          exact heq (Nat.add_mod_right _ _)
        exact h.free p hlo (by omega)
  · simp only [← ht, Function.update_eq_self]
  · simp [log, record, dequeueCall, machine, step, access, slot_eq, ht, h.tail, hfull, hzero,
      State.goto, State.setPayload, State.setSequence, List.replicate, htail, hnext, published,
      claimed]
/-- No producer of the position at `tail_` is inside `enqueue`. -/
def Unhindered (s : State θ α) : Prop := ∀ t, (s.threads t).produces ≠ some s.tail

omit [DecidableEq θ] in
theorem unhindered_of_none (h : ∀ t, (s.threads t).produces = none) : Unhindered s := by
  intro t ht
  rw [h t] at ht
  cases ht

theorem unhindered_update {s' : State θ α} (h : ∀ t, (s.threads t).produces = none) {pc : Pc α}
    (hth : s'.threads = Function.update s.threads t pc) (hpc : pc.produces ≠ some s'.tail) :
    Unhindered s' := by
  intro t'
  rw [hth]
  exact forall_update (P := fun pc => pc.produces ≠ some s'.tail) hpc
    (fun t' _ ht' => by rw [h t'] at ht'; cases ht') t'

theorem Between.enqueue_unhindered (h : Between log2Ring n m s) (ht : s.threads t = .idle)
    (hroom : m < n + kRingSize log2Ring) (hsmall : m + 1 < 2 ^ 64) (hlt : n < m)
    (hnone : ∀ t, (s.threads t).produces = none) :
    ∀ e ∈ record (machine θ α log2Ring) s (enqueueCall t task), Unhindered e.1 := by
  have hfree := h.free m le_rfl hroom
  have hhead : uint64 (m + 1) = m + 1 := uint64_of_lt hsmall
  have hne : some m ≠ some n := by simp [hlt.ne']
  simp only [record, enqueueCall, machine, step, access, slot_eq, ht, h.head, h.tail, hfree, State.goto,
    State.setPayload, State.setSequence, List.replicate, hhead, Function.update_self,
    Function.update_idem, if_true, List.forall_mem_cons, List.not_mem_nil, false_imp_iff, implies_true,
    and_true]
  refine ⟨unhindered_of_none hnone, unhindered_update hnone rfl (by rintro ⟨⟩),
    unhindered_update hnone rfl hne, unhindered_update hnone rfl hne,
    unhindered_update hnone rfl hne⟩

theorem Between.dequeue_unhindered (h : Between log2Ring n m s) (hhi : log2Ring ≤ 63)
    (ht : s.threads t = .idle) (hlt : n < m) (hsmall : n < 2 ^ 63)
    (hnone : ∀ t, (s.threads t).produces = none) :
    ∀ e ∈ record (machine θ α log2Ring) s (dequeueCall t), Unhindered e.1 := by
  have hle := kRingSize_le hhi
  have hfull := h.filled n le_rfl hlt
  have hzero : diff (n + 1) n = 0 := (diff_eq_zero_iff (by omega) (by omega)).mpr rfl
  simp only [record, dequeueCall, machine, step, access, slot_eq, ht, h.tail, hfull, hzero, State.goto,
    State.setPayload, State.setSequence, List.replicate, Function.update_self,
    Function.update_idem, if_true, List.forall_mem_cons, List.not_mem_nil, false_imp_iff, implies_true,
    and_true, List.cons_append, List.nil_append]
  refine ⟨unhindered_of_none hnone, unhindered_update hnone rfl (by rintro ⟨⟩),
    unhindered_update hnone rfl (by rintro ⟨⟩), unhindered_update hnone rfl (by rintro ⟨⟩),
    unhindered_update hnone rfl (by rintro ⟨⟩), unhindered_update hnone rfl (by rintro ⟨⟩),
    unhindered_update hnone rfl (by rintro ⟨⟩)⟩

end Rounds

/-- Two threads that keep one position published and unclaimed, in a call of `dequeue` that a third
thread began at position 0. -/
structure Overtaken (log2Ring n : ℕ) (tr : List (State (Fin 3) Unit × Action (Fin 3) Unit))
    (s : State (Fin 3) Unit) : Prop where
  between : Between log2Ring n (n + 1) s
  producer : s.threads 0 = .idle
  consumer : s.threads 1 = .idle
  late : s.threads 2 = .loadSequence 0
  published : n ∈ log published tr
  claimed : ∀ p ∈ log claimed tr, p < n

theorem Overtaken.quiet {n : ℕ} {tr : List (State (Fin 3) Unit × Action (Fin 3) Unit)}
    {s : State (Fin 3) Unit} (h : Overtaken log2Ring n tr s) (t : Fin 3) :
    (s.threads t).produces = none := by
  fin_cases t
  · exact congrArg Pc.produces h.producer
  · exact congrArg Pc.produces h.consumer
  · exact congrArg Pc.produces h.late

theorem Overtaken.next {n : ℕ} {tr : List (State (Fin 3) Unit × Action (Fin 3) Unit)}
    {s : State (Fin 3) Unit} (h : Overtaken log2Ring n tr s) (hlo : 1 ≤ log2Ring)
    (hhi : log2Ring ≤ 63) (hn : n < 2 ^ 63) :
    ∃ seg s', Steps (machine (Fin 3) Unit log2Ring) s seg s' ∧
      Overtaken log2Ring (n + 1) (tr ++ seg) s' ∧ Hidden tr seg ∧
      ∀ e ∈ seg, e.2 ≠ .dequeue 2 ∧ Unhindered e.1 := by
  have hN := two_le_kRingSize hlo
  obtain ⟨s₁, he₁, hb₁, ht₁, hp₁, hc₁⟩ :=
    h.between.enqueue () h.producer (by omega) (by omega) (by omega)
  obtain ⟨s₂, he₂, hb₂, ht₂, hp₂, hc₂⟩ :=
    hb₁.dequeue hlo hhi (ht₁ ▸ h.consumer) (by omega) hn (by omega)
  refine ⟨_, s₂, (exec_steps he₁).append (exec_steps he₂), ⟨hb₂, ?_, ?_, ?_, ?_, ?_⟩, ?_,
    fun e he => ?_⟩
  · rw [ht₂, ht₁, h.producer]
  · rw [ht₂, ht₁, h.consumer]
  · rw [ht₂, ht₁, h.late]
  · simp [log_append, hp₁]
  · intro p hp
    simp only [log_append, hc₁, hc₂, List.nil_append, List.mem_append, List.mem_singleton] at hp
    rcases hp with hp | rfl
    · have hlt := h.claimed p hp
      omega
    · exact Nat.lt_succ_self _
  · rintro mid ⟨rest, hmid⟩
    rcases List.append_eq_append_iff.mp hmid with ⟨seg, hseg, -⟩ | ⟨seg, rfl, hseg⟩
    · refine ⟨n, ?_, fun hclaim => ?_⟩
      · rw [log_append]
        exact List.mem_append_left _ h.published
      · rw [log_append] at hclaim
        rcases List.mem_append.mp hclaim with hclaim | hclaim
        · exact (h.claimed n hclaim).false
        · have hnil := mem_log_of_prefix ⟨seg, hseg.symm⟩ hclaim
          rw [hc₁] at hnil
          cases hnil
    · refine ⟨n + 1, ?_, fun hclaim => ?_⟩
      · simp [log_append, hp₁]
      · simp only [log_append, hc₁, List.nil_append, List.mem_append] at hclaim
        rcases hclaim with hclaim | hclaim
        · have hlt := h.claimed _ hclaim
          omega
        · have hone := mem_log_of_prefix ⟨rest, hseg.symm⟩ hclaim
          rw [hc₂, List.mem_singleton] at hone
          omega
  · have hquiet := h.quiet
    rcases List.mem_append.mp he with he | he
    · have hact := mem_of_mem_record he
      exact ⟨fun hd => by simp [hd, enqueueCall] at hact,
        h.between.enqueue_unhindered h.producer (by omega) (by omega) (by omega) hquiet e he⟩
    · have hact := mem_of_mem_record he
      exact ⟨fun hd => by simp [hd, dequeueCall] at hact,
        hb₁.dequeue_unhindered hhi (ht₁ ▸ h.consumer) (by omega) hn (ht₁ ▸ hquiet) e he⟩

/-- The claim of the positions goes round while one call of `dequeue` is on its way. -/
theorem exists_overtaken {pre : List (State (Fin 3) Unit × Action (Fin 3) Unit)}
    {s₀ : State (Fin 3) Unit} (h : Overtaken log2Ring 0 pre s₀) (hlo : 1 ≤ log2Ring)
    (hhi : log2Ring ≤ 63) : ∀ n ≤ 2 ^ 63, ∃ post s,
      Steps (machine (Fin 3) Unit log2Ring) s₀ post s ∧ Overtaken log2Ring n (pre ++ post) s ∧
      Hidden pre post ∧ ∀ e ∈ post, e.2 ≠ .dequeue 2 ∧ Unhindered e.1 := by
  intro n
  induction n with
  | zero =>
    refine fun _ => ⟨[], s₀, .nil, by simpa using h, fun mid hmid => ?_, by simp⟩
    rw [List.prefix_nil.mp hmid, List.append_nil]
    exact ⟨0, h.published, fun hclaim => (h.claimed 0 hclaim).false⟩
  | succ n ih =>
    intro hn
    obtain ⟨post, s, hsteps, hover, hhid, hall⟩ := ih (by omega)
    obtain ⟨seg, s', hseg, hover', hhid', hall'⟩ := hover.next hlo hhi (by omega)
    refine ⟨post ++ seg, s', hsteps.append hseg, by rwa [← List.append_assoc], ?_, fun e he => ?_⟩
    · rintro mid ⟨rest, hmid⟩
      rcases List.append_eq_append_iff.mp hmid with ⟨mid', rfl, -⟩ | ⟨mid', rfl, hmid'⟩
      · exact hhid mid ⟨mid', rfl⟩
      · rw [← List.append_assoc]
        exact hhid' mid' ⟨rest, hmid'.symm⟩
    · exact (List.mem_append.mp he).elim (hall e) (hall' e)

/-- A producer that stalls with position 0 while the next one completes its `enqueue`. -/
def stalledSchedule : List (Action (Fin 3) Unit) := List.flatten
  [[.enqueue 0 (), .access 0 false], enqueueCall 1 (), [.dequeue 2],
    List.replicate 2 (.access 2 false)]

/-- The run of that schedule. -/
def stalledRun : List (State (Fin 3) Unit × Action (Fin 3) Unit) :=
  record (machine (Fin 3) Unit 17) (machine (Fin 3) Unit 17).init stalledSchedule

/-- `dequeue` returns null while a producer stalls, though the task behind has been enqueued. -/
theorem stalled_hides : ∃ pre u post s,
    Run (machine (Fin 3) Unit 17) (pre ++ (u, .dequeue 2) :: post) s ∧
      s.threads 2 = .returned none ∧ (∀ e ∈ post, e.2 ≠ .dequeue 2) ∧
      Hidden (pre ++ [(u, .dequeue 2)]) post := by
  have hen : (exec (machine (Fin 3) Unit 17) (machine (Fin 3) Unit 17).init stalledSchedule).any
      fun s => decide (s.threads 2 = .returned none) := by decide
  obtain ⟨s, hs, hend⟩ := (Option.any_eq_true _ _).mp hen
  have hlt : 7 < stalledRun.length := by decide
  have hact : stalledRun[7].2 = .dequeue 2 := by rfl
  have htr : stalledRun =
      stalledRun.take 7 ++ (stalledRun[7].1, .dequeue 2) :: stalledRun.drop 8 := by
    rw [← hact]
    exact (List.take_append_drop 7 stalledRun).symm.trans
      (congrArg _ (List.drop_eq_getElem_cons hlt))
  have honly : (stalledRun.drop 8).all
      fun e => match e.2 with | .dequeue _ => false | _ => true := by decide
  refine ⟨stalledRun.take 7, stalledRun[7].1, stalledRun.drop 8, s,
    by rw [← htr]; exact exec_steps hs, of_decide_eq_true hend, fun e he hd => ?_, fun mid hmid => ⟨1, ?_, fun hclaim => ?_⟩⟩
  · have hother := List.all_eq_true.mp honly e he
    rw [hd] at hother
    cases hother
  · rw [log_append, log_append]
    exact List.mem_append_left _ (List.mem_append_left _ (by decide))
  · have hnone : log claimed stalledRun = [] := by decide
    obtain ⟨rest, hrest⟩ := hmid
    have hpre : stalledRun.take 7 ++ [(stalledRun[7].1, .dequeue 2)] ++ mid <+: stalledRun := by
      refine ⟨rest, ?_⟩
      rw [List.append_assoc, List.append_assoc, hrest]
      exact htr.symm
    have hmem := mem_log_of_prefix hpre hclaim
    rw [hnone] at hmem
    cases hmem

/-- `dequeue` returns null on a cursor that the positions have left `2 ^ 63` behind, though no
producer stalls. -/
theorem overtaken_hides : ∃ pre u post s,
    Run (machine (Fin 3) Unit 17) (pre ++ (u, .dequeue 2) :: post) s ∧
      s.threads 2 = .returned none ∧ (∀ e ∈ post, e.2 ≠ .dequeue 2) ∧
      Hidden (pre ++ [(u, .dequeue 2)]) post ∧ ∀ e ∈ post, Unhindered e.1 := by
  obtain ⟨s₁, pre, hrun, hb, hth, hpub, hclaim⟩ : ∃ s₁ pre,
      Run (machine (Fin 3) Unit 17) pre s₁ ∧ Between 17 0 1 s₁ ∧ (∀ t, s₁.threads t = .idle) ∧
        log published pre = [0] ∧ log claimed pre = [] := by
    obtain ⟨s₁, he, hb, hth, hpub, hclaim⟩ := Between.enqueue (t := (0 : Fin 3)) ()
      (between_init 17) rfl (by decide) (by decide) le_rfl
    exact ⟨s₁, _, exec_steps he, hb, fun t => by rw [hth]; rfl, hpub, hclaim⟩
  let s₂ := s₁.goto 2 .loadTail
  let s₃ := s₂.goto 2 (.loadSequence 0)
  have hs₂ : (machine (Fin 3) Unit 17).step s₁ (.dequeue 2) = some s₂ := by
    simp [machine, step, hth, s₂]
  have hs₃ : (machine (Fin 3) Unit 17).step s₂ (.access 2 false) = some s₃ := by
    simp [machine, step, access, s₂, s₃, hb.tail]
  have hover : Overtaken 17 0 (pre ++ [(s₁, .dequeue 2)] ++ [(s₂, .access 2 false)]) s₃ := by
    have hother : ∀ t ≠ 2, s₃.threads t = .idle := fun t ht => by
      simp [s₃, s₂, Function.update_of_ne ht, hth]
    have hnone : claimed s₂ (.access 2 false) = none := by simp [claimed, s₂]
    refine ⟨⟨hb.tail, hb.head, hb.filled, hb.free⟩, hother 0 (by decide), hother 1 (by decide),
      goto_self _ _ _, ?_, ?_⟩
    · simp [log_append, hpub]
    · rw [log_snoc, log_snoc, hclaim, hnone]
      simp [claimed]
  obtain ⟨post, s, hpost, hend, hhid, hall⟩ :=
    exists_overtaken hover (by decide) (by decide) (2 ^ 63) le_rfl
  have hfilled : s.sequence 0 = 2 ^ 63 + 1 := hend.between.filled (2 ^ 63) le_rfl (Nat.lt_succ_self _)
  have hs : (machine (Fin 3) Unit 17).step s (.access 2 false) =
      some (s.goto 2 (.returned none)) := by
    have hzero : diff (2 ^ 63 + 1) 0 ≠ 0 := by decide
    have hneg : diff (2 ^ 63 + 1) 0 < 0 := by decide
    simp only [machine, step, access, hend.late, slot_eq, Nat.zero_mod, hfilled, if_neg hzero,
      if_pos hneg]
  refine ⟨pre, s₁, (s₂, .access 2 false) :: (post ++ [(s, .access 2 false)]),
    s.goto 2 (.returned none), ?_, goto_self _ _ _, ?_, ?_, ?_⟩
  · have hall := Steps.snoc (((hrun.snoc hs₂).snoc hs₃).append hpost) hs
    simpa only [Run, List.append_assoc, List.cons_append, List.nil_append] using hall
  · intro e he
    rcases List.mem_cons.mp he with rfl | he
    · simp
    rcases List.mem_append.mp he with he | he
    · exact (hall e he).1
    · rw [List.mem_singleton.mp he]
      simp
  · intro mid hmid
    rcases List.prefix_cons_iff.mp hmid with rfl | ⟨mid, rfl, hrest⟩
    · refine ⟨0, by simp [log_append, hpub], ?_⟩
      rw [List.append_nil, log_snoc, hclaim]
      simp [claimed]
    rw [List.append_cons]
    rcases List.prefix_concat_iff.mp hrest with rfl | hpost
    · have hnone : claimed s (.access 2 false) = none := by simp only [claimed, hend.late]
      refine ⟨2 ^ 63, ?_, fun hmem => ?_⟩
      · rw [← List.append_assoc, log_append]
        exact List.mem_append_left _ hend.published
      · rw [← List.append_assoc, log_snoc, hnone, Option.toList_none, List.append_nil] at hmem
        exact (hend.claimed _ hmem).false
    · exact hhid mid hpost
  · intro e he
    rcases List.mem_cons.mp he with rfl | he
    · exact unhindered_update (fun t => by rw [hth]; rfl) rfl (by rintro ⟨⟩)
    rcases List.mem_append.mp he with he | he
    · exact (hall e he).2
    · rw [List.mem_singleton.mp he]
      exact unhindered_of_none hend.quiet

/-- `dequeue` can return null although at every moment of its call a task had been enqueued
completely and not been claimed: behind a producer that stalls, and without one once the positions
have passed `2 ^ 63`. -/
theorem empty_answer_hides :
    (∃ pre u post s, Run (machine (Fin 3) Unit 17) (pre ++ (u, .dequeue 2) :: post) s ∧
      s.threads 2 = .returned none ∧ (∀ e ∈ post, e.2 ≠ .dequeue 2) ∧
      Hidden (pre ++ [(u, .dequeue 2)]) post) ∧
    ∃ pre u post s, Run (machine (Fin 3) Unit 17) (pre ++ (u, .dequeue 2) :: post) s ∧
      s.threads 2 = .returned none ∧ (∀ e ∈ post, e.2 ≠ .dequeue 2) ∧
      Hidden (pre ++ [(u, .dequeue 2)]) post ∧ ∀ e ∈ post, Unhindered e.1 :=
  ⟨stalled_hides, overtaken_hides⟩

end TaskScheduler.LockFree.Ring
