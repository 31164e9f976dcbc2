import TaskScheduler.StealingOwnership

/-!
# The steal sweep of WorkStealingScheduler

Which deques the attempts of one sweep of `worker_loop` probe, when no steal succeeds. The
attempt that falls on the thief itself is moved to the next worker, which the following attempt
probes too, so one worker is left out unless that attempt is the last one or does not occur.
-/
namespace TaskScheduler.WorkStealing
open Transition

/-- The victims of the attempts of a sweep. -/
def probes (n id rng : ℕ) : List ℕ :=
  (List.range (n - 1)).map (victim n id (sweepStart n id rng))

/-- The attempt that falls on the thief itself; the attempts of a sweep are those below `n - 1`. -/
def selfAttempt (n id rng : ℕ) : ℕ :=
  let r := rng % (n - 1)
  if r < id then id - r else id + (n - 1) - r

section Probes
variable {n id rng : ℕ}

theorem wrap {a : ℕ} (h : a < 2 * n) : a % n = if a < n then a else a - n := by
  split_ifs with hlt
  · exact Nat.mod_eq_of_lt hlt
  · rw [Nat.mod_eq_sub_mod (by omega), Nat.mod_eq_of_lt (by omega)]

theorem sweepStart_lt (id rng : ℕ) (hn : 2 ≤ n) : sweepStart n id rng < n := by
  have hr : rng % (n - 1) < n - 1 := Nat.mod_lt _ (by omega)
  simp only [sweepStart]
  split_ifs <;> omega

/-- The base victim of an attempt is the thief itself in one attempt only. -/
theorem base_eq_iff (rng : ℕ) {attempt : ℕ} (hn : 2 ≤ n) (hid : id < n) (ha : attempt < n) :
    (sweepStart n id rng + attempt) % n = id ↔ attempt = selfAttempt n id rng := by
  have hr : rng % (n - 1) < n - 1 := Nat.mod_lt _ (by omega)
  have hs := sweepStart_lt id rng hn
  rw [wrap (by omega)]
  simp only [sweepStart, selfAttempt] at hs ⊢
  split_ifs <;> omega

theorem victim_other {attempt : ℕ} (hn : 2 ≤ n) (hn' : n ≤ 2 ^ 31) (hid : id < n)
    (ha : attempt < n) (hne : attempt ≠ selfAttempt n id rng) :
    victim n id (sweepStart n id rng) attempt = (sweepStart n id rng + attempt) % n := by
  have hs := sweepStart_lt id rng hn
  have hu : u32 (sweepStart n id rng + attempt) = sweepStart n id rng + attempt :=
    Nat.mod_eq_of_lt (by omega)
  simp only [victim, hu]
  rw [if_neg fun h => hne ((base_eq_iff rng hn hid ha).mp h)]

theorem victim_self (hn : 2 ≤ n) (hn' : n ≤ 2 ^ 31) (hid : id < n)
    (ha : selfAttempt n id rng < n) :
    victim n id (sweepStart n id rng) (selfAttempt n id rng) =
      if id + 1 < n then id + 1 else 0 := by
  have hs := sweepStart_lt id rng hn
  have hu : u32 (sweepStart n id rng + selfAttempt n id rng) =
      sweepStart n id rng + selfAttempt n id rng := Nat.mod_eq_of_lt (by omega)
  have hu' : u32 (id + 1) = id + 1 := Nat.mod_eq_of_lt (by omega)
  simp only [victim, hu]
  rw [if_pos ((base_eq_iff rng hn hid ha).mpr rfl), (base_eq_iff rng hn hid ha).mpr rfl, hu',
    wrap (by omega)]
  split_ifs <;> omega

theorem base_injective {start a b : ℕ} (hs : start < n) (ha : a < n) (hb : b < n)
    (h : (start + a) % n = (start + b) % n) : a = b := by
  rw [wrap (by omega), wrap (by omega)] at h
  split_ifs at h <;> omega

/-- The worker that the attempt on the thief itself is moved to is the base victim of the next
attempt. -/
theorem base_succ (rng : ℕ) (hn : 2 ≤ n) (hid : id < n) (ha : selfAttempt n id rng + 1 < n) :
    (sweepStart n id rng + (selfAttempt n id rng + 1)) % n = if id + 1 < n then id + 1 else 0 := by
  have hbase := (base_eq_iff rng hn hid (by omega)).mpr rfl
  have hs := sweepStart_lt id rng hn
  rw [wrap (by omega)] at hbase ⊢
  split_ifs at hbase ⊢ <;> omega

theorem length_probes : (probes n id rng).length = n - 1 := by simp [probes]

theorem mem_probes (hn : 2 ≤ n) (hn' : n ≤ 2 ^ 31) {v : ℕ} (hv : v ∈ probes n id rng) :
    v ≠ id ∧ v < n := by
  obtain ⟨a, -, rfl⟩ := List.mem_map.mp hv
  refine ⟨victim_ne (by omega) (by omega), ?_⟩
  simp only [victim]
  split_ifs <;> exact Nat.mod_lt _ (by omega)

theorem nodup_probes (hn : 2 ≤ n) (hn' : n ≤ 2 ^ 31) (hid : id < n) :
    (probes n id rng).Nodup ↔ n - 1 ≤ selfAttempt n id rng + 1 := by
  have hs := sweepStart_lt id rng hn
  constructor
  · intro hnd
    by_contra hlt
    have hlast : selfAttempt n id rng + 1 < n := by omega
    have hnext := victim_other hn hn' hid hlast (Nat.succ_ne_self _)
    rw [base_succ rng hn hid hlast] at hnext
    have hself := victim_self hn hn' hid (by omega : selfAttempt n id rng < n)
    have hsame := hself.trans hnext.symm
    have heq := List.inj_on_of_nodup_map hnd
      (List.mem_range.mpr (by omega : selfAttempt n id rng < n - 1))
      (List.mem_range.mpr (by omega : selfAttempt n id rng + 1 < n - 1)) hsame
    omega
  · intro hle
    refine List.Nodup.map_on (fun a ha b hb hab => ?_) List.nodup_range
    rw [List.mem_range] at ha hb
    -- The worker after the thief is the base victim of no attempt of the sweep.
    have hother : ∀ c, c < n - 1 → selfAttempt n id rng < n - 1 →
        (sweepStart n id rng + c) % n ≠ if id + 1 < n then id + 1 else 0 := by
      intro c hc hself heq
      rw [← base_succ rng hn hid (by omega)] at heq
      have hce := base_injective hs (by omega) (by omega) heq
      omega
    by_cases hsa : a = selfAttempt n id rng <;> by_cases hsb : b = selfAttempt n id rng
    · exact hsa.trans hsb.symm
    · rw [hsa, victim_self hn hn' hid (by omega), victim_other hn hn' hid (by omega) hsb] at hab
      exact absurd hab.symm (hother b hb (hsa ▸ ha))
    · rw [hsb, victim_self hn hn' hid (by omega), victim_other hn hn' hid (by omega) hsa] at hab
      exact absurd hab (hother a ha (hsb ▸ hb))
    · rw [victim_other hn hn' hid (by omega) hsa, victim_other hn hn' hid (by omega) hsb] at hab
      exact base_injective hs (by omega) (by omega) hab

/-- The thief itself is the base victim of the last attempt or of none. -/
theorem selfAttempt_late (hn : 2 ≤ n) (hid : id < n) :
    n - 1 ≤ selfAttempt n id rng + 1 ↔
      rng % (n - 1) = id % (n - 1) ∨ rng % (n - 1) = (id + 1) % (n - 1) := by
  have hr : rng % (n - 1) < n - 1 := Nat.mod_lt _ (by omega)
  rcases Nat.lt_or_ge 2 n with h2 | h2
  · rw [wrap (n := n - 1) (a := id) (by omega), wrap (n := n - 1) (a := id + 1) (by omega)]
    simp only [selfAttempt]
    split_ifs <;> omega
  · obtain rfl : n = 2 := by omega
    simp [Nat.mod_one]

theorem perm_others_iff {l : List ℕ} (hl : l.length = n - 1) (hmem : ∀ v ∈ l, v ≠ id ∧ v < n)
    (hid : id < n) : l.Perm ((List.range n).erase id) ↔ l.Nodup := by
  constructor
  · intro hp
    exact hp.nodup_iff.mpr (List.nodup_range.erase id)
  · intro hnd
    refine (List.subperm_of_subset hnd fun v hv => ?_).perm_of_length_le ?_
    · obtain ⟨hne, hlt⟩ := hmem v hv
      exact (List.mem_erase_of_ne hne).mpr (List.mem_range.mpr hlt)
    · rw [List.length_erase_of_mem (List.mem_range.mpr hid), List.length_range, hl]

/-- A sweep probes every other worker exactly once if and only if its start is the next worker
or the one after that. -/
theorem probes_perm_iff (hn : 2 ≤ n) (hn' : n ≤ 2 ^ 31) (hid : id < n) :
    (probes n id rng).Perm ((List.range n).erase id) ↔
      rng % (n - 1) = id % (n - 1) ∨ rng % (n - 1) = (id + 1) % (n - 1) := by
  rw [perm_others_iff length_probes (fun v hv => mem_probes hn hn' hv) hid,
    nodup_probes hn hn' hid, selfAttempt_late hn hid]

end Probes

variable {κ ι α : Type*}

def WorkerPc.isStealing : WorkerPc α → Bool
  | .steal .. => true
  | _ => false

variable [DecidableEq κ] [DecidableEq ι]

/-- The worker that the step tries to steal from, where it is a step of worker `i`. -/
def probed (k : κ) (i : ℕ) (s : State κ ι α) : Action κ ι α → Option ℕ
  | .worker k' i' _ =>
    if k' = k ∧ i' = i then
      match s.worker (k, i) with
      | .steal start attempt =>
        if attempt < u32 (s.inst k).size - 1 then
          some (victim (u32 (s.inst k).size) i start attempt)
        else none
      | _ => none
    else none
  | _ => none

/-- A sweep of worker `i`, from the value of `rng()` to the end of the loop, in which no steal
succeeds. -/
structure Sweep (k : κ) (i rng : ℕ) (tr : List (State κ ι α × Action κ ι α))
    (s s' : State κ ι α) : Prop where
  steps : Steps (machine κ ι α) s ((s, .worker k i rng) :: tr) s'
  pick : s.worker (k, i) = .pick
  steal : ∀ e ∈ tr, (e.1.worker (k, i)).isStealing
  done : s'.worker (k, i) = .pop

/-- From its `resize` to the end of `run`, `workers_` has one context for each worker. -/
def Sized (m : Instance α) : Prop :=
  match m.run with
  | .idle | .clear | .resize => True
  | _ => m.size = m.numWorkers

section Size
variable {s s' : State κ ι α} {a : Action κ ι α} {k : κ} {i : ℕ}

omit [DecidableEq κ] [DecidableEq ι] in
theorem Frame.sized {m m' : Instance α} (h : Frame m m') (hm : Sized m) : Sized m' := by
  simpa only [Sized, h.run, h.size, h.numWorkers] using hm

omit [DecidableEq κ] [DecidableEq ι] in
theorem runStep_sized {m m' : Instance α} (hm : Sized m) (h : runStep m m.run = some m') :
    Sized m' ∧ m'.numWorkers = m.numWorkers := by
  cases hr : m.run with
  | idle => simp [runStep, hr] at h
  | clear =>
    simp only [runStep, hr, Option.some.injEq] at h
    subst h
    exact ⟨trivial, rfl⟩
  | resize =>
    simp only [runStep, hr, Option.some.injEq] at h
    subst h
    exact ⟨rfl, rfl⟩
  | drain =>
    simp only [Sized, hr] at hm
    cases hq : m.injectQueue with
    | nil =>
      simp only [runStep, hr, hq, Option.some.injEq] at h
      subst h
      exact ⟨hm, rfl⟩
    | cons task rest =>
      simp only [runStep, hr, hq, Option.map_eq_some_iff] at h
      obtain ⟨l, hl, rfl⟩ := h
      exact ⟨by simpa [Sized, Instance.setDeque, hr] using hm, rfl⟩
  | _ =>
    simp only [Sized, hr] at hm
    simp only [runStep, hr] at h
    try split_ifs at h
    all_goals
      cases h
      first
        | exact ⟨hm, rfl⟩
        | exact ⟨trivial, rfl⟩
        | exact ⟨by simpa [Sized, hr] using hm, rfl⟩

theorem sized_step (h : Inv s) (hsz : ∀ k, Sized (s.inst k)) (hs : step s a = some s') (k : κ) :
    Sized (s'.inst k) := by
  rcases inst_step k hs with he | ⟨t, pc, rest, -, -, hm⟩ | ⟨i, rng, pc', -, hm⟩ | ⟨i, -, he⟩ |
    ⟨n, -, hr, he⟩ | ⟨-, hm | ⟨i, hr, he⟩ | ⟨i, hr, he⟩⟩
  · exact he ▸ hsz k
  · exact (submitStep_spec (h.inst k) hm).1.sized (hsz k)
  · exact (workerStep_spec (h.inst k) hm).1.sized (hsz k)
  · rw [he]
    exact hsz k
  · rw [he]
    trivial
  · exact (runStep_sized (hsz k) hm).1
  · have hsame := hsz k
    simp only [Sized, hr] at hsame
    rw [he]
    exact hsame
  · have hsame := hsz k
    simp only [Sized, hr] at hsame
    rw [he]
    exact hsame

/-- The number of workers does not change while a worker is on. -/
theorem numWorkers_step (h : Inv s) (hsz : Sized (s.inst k)) (hi : Active (s.inst k) i)
    (hs : step s a = some s') : (s'.inst k).numWorkers = (s.inst k).numWorkers := by
  rcases inst_step k hs with he | ⟨t, pc, rest, -, -, hm⟩ | ⟨i, rng, pc', -, hm⟩ | ⟨i, -, he⟩ |
    ⟨n, -, hr, -⟩ | ⟨-, hm | ⟨i, hr, he⟩ | ⟨i, hr, he⟩⟩
  · rw [he]
  · exact (submitStep_spec (h.inst k) hm).1.numWorkers
  · exact (workerStep_spec (h.inst k) hm).1.numWorkers
  · rw [he]
  · exact absurd hi.2 (by simp [hr])
  · exact (runStep_sized hsz hm).2
  · rw [he]
  · rw [he]

omit [DecidableEq κ] [DecidableEq ι] in
theorem Inv.size_eq (h : Inv s) (hsz : Sized (s.inst k)) (hi : Active (s.inst k) i) :
    u32 (s.inst k).size = (s.inst k).numWorkers := by
  have hsame : (s.inst k).size = (s.inst k).numWorkers := by
    have hact := hi.2
    cases hr : (s.inst k).run <;> simp_all [Sized]
  rw [hsame]
  exact Nat.mod_eq_of_lt (h.inst k).small

end Size

section Sweep
variable {s s' u v : State κ ι α} {a : Action κ ι α} {k : κ} {i rng start attempt : ℕ}
  {tr : List (State κ ι α × Action κ ι α)}

/-- Other steps leave a worker in the middle of a sweep where it is. -/
theorem worker_of_others (h : Inv s) (hpc : s.worker (k, i) = .steal start attempt)
    (hs : step s a = some s') (ha : ∀ rng, a ≠ .worker k i rng) :
    s'.worker (k, i) = .steal start attempt ∧ probed k i s a = none := by
  cases a with
  | submit t k' task =>
    simp only [step] at hs
    split_ifs at hs
    cases hs
    exact ⟨hpc, rfl⟩
  | call t =>
    cases hc : s.call t with
    | none => simp [step, hc] at hs
    | some c =>
      simp only [step, hc, Option.map_eq_some_iff] at hs
      obtain ⟨r, -, rfl⟩ := hs
      exact ⟨hpc, rfl⟩
  | worker k' i' rng =>
    have hne : (k, i) ≠ (k', i') := by
      rintro he
      cases he
      exact ha rng rfl
    obtain ⟨m', pc', -, -, hw, -⟩ := step_worker hs
    refine ⟨by rw [hw, Function.update_of_ne hne, hpc], if_neg ?_⟩
    rintro ⟨rfl, rfl⟩
    exact hne rfl
  | finish k' i' =>
    cases hpc' : s.worker (k', i') <;> simp only [step, hpc', reduceCtorEq] at hs
    cases hc : s.call (.worker k' i') <;> simp only [hc, reduceCtorEq, Option.some.injEq] at hs
    subst hs
    have hne : (k, i) ≠ (k', i') := by
      rintro he
      cases he
      rw [hpc] at hpc'
      cases hpc'
    exact ⟨by simp [Function.update_of_ne hne, hpc], rfl⟩
  | run k' n =>
    cases hr : (s.inst k').run <;> simp only [step, hr, reduceCtorEq] at hs
    split_ifs at hs
    cases hs
    exact ⟨hpc, rfl⟩
  | runner k' =>
    refine ⟨?_, rfl⟩
    rcases step_runner hs with ⟨m', -, rfl⟩ | ⟨j, hr, -, rfl⟩ | ⟨j, hr, -, hex, rfl⟩
    · exact hpc
    · have hne : (k, i) ≠ (k', j) := by
        rintro he
        cases he
        have hoff := h.off k i (by simp [Active, hr])
        rw [hpc] at hoff
        cases hoff
      simp [Function.update_of_ne hne, hpc]
    · have hne : (k, i) ≠ (k', j) := by
        rintro he
        cases he
        simp [hpc, WorkerPc.isExited] at hex
      simp [Function.update_of_ne hne, hpc]

/-- What one attempt of the sweep does. -/
theorem attempt_step (hpc : s.worker (k, i) = .steal start attempt)
    (hs : step s (.worker k i rng) = some s') :
    (attempt < u32 (s.inst k).size - 1 ∧
        probed k i s (.worker k i rng) = some (victim (u32 (s.inst k).size) i start attempt) ∧
        ((s'.worker (k, i)).isRunning ∨ s'.worker (k, i) = .steal start (attempt + 1))) ∨
      (u32 (s.inst k).size - 1 ≤ attempt ∧ probed k i s (.worker k i rng) = none ∧
        s'.worker (k, i) = .pop) := by
  obtain ⟨m', pc', hm, -, hw, -⟩ := step_worker hs
  rw [hpc] at hm
  simp only [workerStep] at hm
  simp only [probed, hpc, and_self, if_true, hw, Function.update_self]
  split_ifs at hm with hlt
  · obtain ⟨l, -, hl⟩ := Option.map_eq_some_iff.mp hm
    refine .inl ⟨hlt, if_pos hlt, ?_⟩
    cases l <;> cases hl
    · exact .inr rfl
    · exact .inl rfl
  · cases hm
    exact .inr ⟨not_lt.mp hlt, if_neg hlt, rfl⟩

/-- A part of a sweep probes the victims of its attempts in turn. -/
theorem sweep_prefix {n : ℕ} (h : Steps (machine κ ι α) u tr v) (hinv : Inv u)
    (hsz : ∀ k, Sized (u.inst k)) (hn : (u.inst k).numWorkers = n)
    (h0 : u.worker (k, i) = .steal start 0) (hin : ∀ e ∈ tr, (e.1.worker (k, i)).isStealing)
    (hv : (v.worker (k, i)).isStealing) :
    Inv v ∧ (∀ k, Sized (v.inst k)) ∧ (v.inst k).numWorkers = n ∧ ∃ j ≤ n - 1,
      v.worker (k, i) = .steal start j ∧
        log (probed k i) tr = (List.range j).map (victim n i start) := by
  induction h with
  | nil => exact ⟨hinv, hsz, hn, 0, Nat.zero_le _, h0, rfl⟩
  | @snoc tr w v a prior last ih =>
    obtain ⟨hw, hwsz, hwn, j, hj, hpc, hlog⟩ :=
      ih (fun e he => hin e (by simp [he])) (hin (w, a) (by simp))
    have hact : Active (w.inst k) i := hw.active (by simp [hpc])
    refine ⟨inv_step w a v hw last, sized_step hw hwsz last,
      (numWorkers_step hw (hwsz k) hact last).trans hwn, ?_⟩
    by_cases ha : ∃ rng, a = .worker k i rng
    · obtain ⟨rng, rfl⟩ := ha
      rcases attempt_step hpc last with ⟨hlt, hp, hrun | hnext⟩ | ⟨-, -, hpop⟩
      · cases hpc' : v.worker (k, i) <;>
          simp_all [WorkerPc.isStealing, WorkerPc.isRunning]
      · rw [hw.size_eq (hwsz k) hact, hwn] at hlt hp
        exact ⟨j + 1, hlt, hnext, by rw [log_snoc, hlog, hp, List.range_succ]; simp⟩
      · rw [hpop] at hv
        cases hv
    · obtain ⟨hsame, hnone⟩ :=
        worker_of_others hw hpc last fun rng he => ha ⟨rng, he⟩
      exact ⟨j, hj, hsame, by rw [log_snoc, hlog, hnone]; simp⟩

theorem sized_of_reachable (h : Reachable (machine κ ι α) s) (k : κ) : Sized (s.inst k) := by
  refine (Reachable.invariant (I := fun s => Inv s ∧ ∀ k, Sized (s.inst k))
    ⟨inv_init, fun _ => trivial⟩ ?_ h).2 k
  rintro u a v ⟨hi, hu⟩ hs
  exact ⟨inv_step u a v hi hs, sized_step hi hu hs⟩

theorem pick_step (hpc : s.worker (k, i) = .pick) (hsize : 1 < (s.inst k).size)
    (hs : step s (.worker k i rng) = some s') :
    s'.inst k = s.inst k ∧
      s'.worker (k, i) = .steal (sweepStart (u32 (s.inst k).size) i rng) 0 := by
  obtain ⟨m', pc', hm, hinst, hw, -⟩ := step_worker hs
  simp only [workerStep, hpc, if_pos hsize, Option.some.injEq, Prod.mk.injEq] at hm
  obtain ⟨rfl, rfl⟩ := hm
  exact ⟨by rw [hinst, Function.update_self], by rw [hw, Function.update_self]⟩

/-- A sweep in which no steal succeeds probes the victims of its attempts in turn. -/
theorem Sweep.log_eq (hr : Reachable (machine κ ι α) s) (h : Sweep k i rng tr s s')
    (hn : 2 ≤ (s.inst k).numWorkers) :
    log (probed k i) tr = probes (s.inst k).numWorkers i rng := by
  have hsteps : Steps (machine κ ι α) s ([] ++ (s, .worker k i rng) :: tr) s' := h.steps
  obtain ⟨-, w, hstep, hrest⟩ := hsteps.split_at
  have hw : step s (.worker k i rng) = some w := hstep
  have hinv : Inv s := Reachable.invariant inv_init inv_step hr
  have hsz := sized_of_reachable hr
  have hact : Active (s.inst k) i := hinv.active (by simp [h.pick])
  have hsize := hinv.size_eq (hsz k) hact
  have hlt : 1 < (s.inst k).size := by
    have hle : u32 (s.inst k).size ≤ (s.inst k).size := Nat.mod_le _ _
    omega
  obtain ⟨hinst, hstart⟩ := pick_step h.pick hlt hw
  rcases List.eq_nil_or_concat tr with rfl | ⟨tr₀, e, rfl⟩
  · have hdone := h.done
    rw [hrest.of_nil, hstart] at hdone
    cases hdone
  · obtain ⟨x, b⟩ := e
    rw [List.concat_eq_append] at hrest ⊢
    obtain ⟨hpre, hlast⟩ := hrest.last
    have hsteal := h.steal
    rw [List.concat_eq_append] at hsteal
    obtain ⟨hx, hxsz, hxn, j, hj, hpc, hlog⟩ := sweep_prefix hpre (inv_step _ _ _ hinv hw)
      (sized_step hinv hsz hw) (congrArg Instance.numWorkers hinst) hstart
      (fun e he => hsteal e (by simp [he])) (hsteal (x, b) (by simp))
    rw [log_snoc, hlog, hsize]
    by_cases hb : ∃ rng, b = .worker k i rng
    · obtain ⟨rng', rfl⟩ := hb
      rcases attempt_step hpc hlast with ⟨-, -, hrun | hnext⟩ | ⟨hge, hnone, -⟩
      · rw [h.done] at hrun
        cases hrun
      · rw [h.done] at hnext
        cases hnext
      · have hxact : Active (x.inst k) i := hx.active (by simp [hpc])
        rw [hx.size_eq (hxsz k) hxact, hxn] at hge
        obtain rfl : j = (s.inst k).numWorkers - 1 := le_antisymm hj hge
        rw [hnone]
        simp [probes]
    · have hsame := (worker_of_others hx hpc hlast fun rng he => hb ⟨rng, he⟩).1
      rw [h.done] at hsame
      cases hsame

/-- A sweep in which no steal succeeds probes each other worker exactly once, and never the thief
itself, if and only if the value of `rng()` makes it start at the next worker or at the one after
that. -/
theorem sweep_complete (hr : Reachable (machine κ ι α) s) (h : Sweep k i rng tr s s')
    (hn : 2 ≤ (s.inst k).numWorkers) (hn' : (s.inst k).numWorkers ≤ 2 ^ 31) :
    (log (probed k i) tr).Perm ((List.range (s.inst k).numWorkers).erase i) ↔
      rng % ((s.inst k).numWorkers - 1) = i % ((s.inst k).numWorkers - 1) ∨
        rng % ((s.inst k).numWorkers - 1) = (i + 1) % ((s.inst k).numWorkers - 1) := by
  have hinv : Inv s := Reachable.invariant inv_init inv_step hr
  rw [h.log_eq hr hn]
  exact probes_perm_iff hn hn' (hinv.active (by simp [h.pick])).1

end Sweep

section Runs

theorem sweep_of_exec {s s' : State κ ι α} {k : κ} {i rng : ℕ} {as : List (Action κ ι α)}
    (h : exec (machine κ ι α) s (.worker k i rng :: as) = some s') (hpick : s.worker (k, i) = .pick)
    (hsteal : ∀ e ∈ (record (machine κ ι α) s (.worker k i rng :: as)).tail,
      (e.1.worker (k, i)).isStealing) (hdone : s'.worker (k, i) = .pop) :
    Sweep k i rng (record (machine κ ι α) s (.worker k i rng :: as)).tail s s' := by
  obtain ⟨u, hu, -⟩ := Option.bind_eq_some_iff.mp h
  have hsteps := exec_steps h
  simp only [record, hu] at hsteps hsteal ⊢
  exact ⟨hsteps, hpick, hsteal, hdone⟩

/-- Worker 1 of four finds its deque empty, while a task waits in `inject_queue_`. -/
def pickSchedule : List (Action Unit (Fin 1) ℕ) :=
  List.flatten [[.run () 4], List.replicate 14 (.runner ()), [.submit (.outside 0) () 7],
    List.replicate 4 (.call (.outside 0)), List.replicate 4 (.worker () 1 0)]

/-- One sweep of it, with the value of `rng()`. -/
def sweepSchedule (rng : ℕ) : List (Action Unit (Fin 1) ℕ) :=
  .worker () 1 rng :: List.replicate 4 (.worker () 1 0)

/-- A start at the worker after the thief probes the three others. -/
theorem sweep_complete_next :
    ∃ s s' tr, Reachable (machine Unit (Fin 1) ℕ) s ∧ Sweep () 1 1 tr s s' ∧
      (s.inst ()).numWorkers = 4 ∧ (log (probed () 1) tr).Perm ((List.range 4).erase 1) := by
  have hen : (exec (machine Unit (Fin 1) ℕ) (machine Unit (Fin 1) ℕ).init pickSchedule).isSome :=
    rfl
  obtain ⟨s, hs, hrun⟩ := exists_run hen
  have hn : (s.inst ()).numWorkers = 4 := by
    cases hs
    rfl
  have hnext : (exec (machine Unit (Fin 1) ℕ) s (sweepSchedule 1)).isSome := by
    cases hs
    rfl
  obtain ⟨s', hs'⟩ := Option.isSome_iff_exists.mp hnext
  have hsweep : Sweep () 1 1 (record (machine Unit (Fin 1) ℕ) s (sweepSchedule 1)).tail s s' := by
    cases hs
    cases hs'
    exact sweep_of_exec rfl rfl (by decide) rfl
  refine ⟨s, s', _, hrun.reachable, hsweep, hn, ?_⟩
  rw [← hn]
  exact (sweep_complete hrun.reachable hsweep (by omega) (by omega)).mpr (.inl (by rw [hn]))

/-- A start at worker 0 probes worker 2 twice and worker 3 not at all. -/
theorem sweep_misses :
    ∃ s s' tr, Reachable (machine Unit (Fin 1) ℕ) s ∧ Sweep () 1 0 tr s s' ∧
      (s.inst ()).numWorkers = 4 ∧ log (probed () 1) tr = [0, 2, 2] ∧
      ¬ (log (probed () 1) tr).Perm ((List.range 4).erase 1) := by
  have hen : (exec (machine Unit (Fin 1) ℕ) (machine Unit (Fin 1) ℕ).init pickSchedule).isSome :=
    rfl
  obtain ⟨s, hs, hrun⟩ := exists_run hen
  have hnext : (exec (machine Unit (Fin 1) ℕ) s (sweepSchedule 0)).isSome := by
    cases hs
    rfl
  obtain ⟨s', hs'⟩ := Option.isSome_iff_exists.mp hnext
  have hlog : log (probed () 1) (record (machine Unit (Fin 1) ℕ) s (sweepSchedule 0)).tail =
      [0, 2, 2] := by
    cases hs
    rfl
  refine ⟨s, s', _, hrun.reachable, ?_, ?_, hlog, ?_⟩
  · cases hs
    cases hs'
    exact sweep_of_exec rfl rfl (by decide) rfl
  · cases hs
    rfl
  · rw [hlog]
    decide

end Runs

end TaskScheduler.WorkStealing
