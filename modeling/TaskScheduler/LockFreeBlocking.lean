import TaskScheduler.LockFreeInvariant
import TaskScheduler.RingDelivery

/-!
# Waiting for a slot of a full ring

When the wait of `enqueue` for its slot can no longer end, for the thread that submits
before `run` and for the workers that are the only consumers during `run`.
-/
namespace TaskScheduler.LockFree
open Transition

namespace Ring
variable {θ α : Type*} [DecidableEq θ] {log2Ring : ℕ} {s s' : State θ α} {a : Action θ α}

/-- A thread waits for its slot since it reserved the position. -/
theorem await_cases (hs : step log2Ring s a = some s') {t : θ} {pos : ℕ} {task : α}
    (h : s'.threads t = .await pos task) :
    s.threads t = .await pos task ∨ (∃ spurious, a = .access t spurious) ∧
      s.threads t = .reserve task ∧ pos = s.head ∧ s'.tail = s.tail := by
  obtain ⟨pc, hth, hm⟩ := step_threads hs
  rw [hth] at h
  by_cases ht : t = a.thread
  · subst ht
    rw [Function.update_self] at h
    subst h
    cases a with
    | enqueue t task' => exact absurd hm.2 (by simp)
    | dequeue t => exact absurd hm.2 (by simp)
    | finish t => exact absurd hm.1 (by simp)
    | access t spurious =>
      have hself : s'.threads t = .await pos task := by
        rw [hth]
        exact Function.update_self _ _ _
      simp only [step] at hs
      simp only [Action.thread]
      cases hpc : s.threads t with
      | reserve task' =>
        simp only [access, hpc, Option.some.injEq] at hs
        subst hs
        rw [goto_threads, Function.update_self] at hself
        cases hself
        exact .inr ⟨⟨spurious, rfl⟩, rfl, rfl, rfl⟩
      | await pos' task' =>
        simp only [access, hpc] at hs
        split_ifs at hs <;> cases hs
        · rw [goto_threads, Function.update_self] at hself
          cases hself
        · exact .inl (hpc.symm.trans hself)
      | loadSequence pos' =>
        simp only [access, hpc] at hs
        split_ifs at hs <;> cases hs <;> rw [goto_threads, Function.update_self] at hself <;>
          cases hself
      | claim pos' =>
        simp only [access, hpc] at hs
        split_ifs at hs <;> cases hs <;> rw [goto_threads, Function.update_self] at hself <;>
          cases hself
      | idle => simp [access, hpc] at hs
      | returned r => simp [access, hpc] at hs
      | _ =>
        simp only [access, hpc, Option.some.injEq] at hs
        subst hs
        rw [goto_threads, Function.update_self] at hself
        cases hself
  · rw [Function.update_of_ne ht] at h
    exact .inl h

theorem tail_le {L : List α} (hinv : Inv (kRingSize log2Ring) L s) (hlen : s.head < 2 ^ 63)
    (hs : step log2Ring s a = some s') : s.tail ≤ s'.tail := by
  have htail := hinv.tail
  rw [tail_step (by omega) hs]
  exact Nat.le_add_right _ _

end Ring

variable {ι ω α : Type*}

/-- The workers of the `run` in progress. -/
def RunPc.crew : RunPc ι ω → Option (List ω)
  | .launch _ crew _ | .wait _ crew | .setShutdown _ crew | .join _ crew _ => some crew
  | _ => none

/-- The thread is in the wait loop of `enqueue`, and its slot is not there yet. -/
def Waiting (log2Ring : ℕ) (s : State ι ω α) (t : Thread ι ω) : Prop :=
  ∃ pos task, s.ring.threads t = .await pos task ∧ s.ring.sequence (slot log2Ring pos) ≠ pos

/-- Some thread waits, and no consumer is left: no `run` is in progress, or all its workers wait
as well. -/
def Blocked (log2Ring : ℕ) (s : State ι ω α) : Prop :=
  (∃ t, Waiting log2Ring s t) ∧
    ∀ crew, s.run.crew = some crew → ∀ w ∈ crew, Waiting log2Ring s (.worker w)

/-- The workers that the `run` in progress has besides one of them. -/
def RunPc.others (run : RunPc ι ω) : ℕ :=
  match run.crew with
  | some crew => crew.length - 1
  | none => 0

/-- The step reserves a position while the fill level `head_ - tail_` is the size of the ring, and
one more for every other worker of the `run` in progress, or above. -/
def Overfills (log2Ring : ℕ) (s : State ι ω α) (a : Action ι ω α) : Prop :=
  ∃ t spurious task, a = .access t spurious ∧ s.ring.threads t = .reserve task ∧
    s.ring.tail + kRingSize log2Ring + s.run.others ≤ s.ring.head

/-- The step reserves a position on a full ring while every other worker waits. -/
def Starves (log2Ring : ℕ) (s : State ι ω α) (a : Action ι ω α) : Prop :=
  ∃ t spurious task, a = .access t spurious ∧ s.ring.threads t = .reserve task ∧
    s.ring.tail + kRingSize log2Ring ≤ s.ring.head ∧
    ∀ crew, s.run.crew = some crew → ∀ w ∈ crew, .worker w = t ∨ Waiting log2Ring s (.worker w)

/-- The thread waits for a position beyond the ring. -/
def Beyond (N : ℕ) (s : State ι ω α) (t : Thread ι ω) : Prop :=
  ∃ pos task, s.ring.threads t = .await pos task ∧ s.ring.tail + N ≤ pos

/-- All that could consume wait for positions beyond the ring. -/
def Doomed (N : ℕ) (s : State ι ω α) : Prop :=
  (∃ t, Beyond N s t) ∧ ∀ crew, s.run.crew = some crew → ∀ w ∈ crew, Beyond N s (.worker w)

variable {log2Ring : ℕ} {L : List α} {s s' : State ι ω α} {a : Action ι ω α}

theorem Beyond.waiting (hinv : Ring.Inv (kRingSize log2Ring) L s.ring) (hlo : 1 ≤ log2Ring)
    {t : Thread ι ω} (h : Beyond (kRingSize log2Ring) s t) : Waiting log2Ring s t := by
  obtain ⟨pos, task, ht, hle⟩ := h
  refine ⟨pos, task, ht, fun hseq => ?_⟩
  rw [Ring.slot_eq] at hseq
  have hfree := hinv.free (Ring.two_le_kRingSize hlo) hseq
  omega

/-- A worker outside the crew does not exist. -/
theorem CrewOk.off {worker : ω → WorkerPc α} {run : RunPc ι ω} (h : CrewOk worker run) {w : ω}
    (hw : ∀ crew, run.crew = some crew → w ∉ crew) : worker w = .off := by
  cases run with
  | launch i crew rest => exact h.2.2 w (.inl (hw crew rfl))
  | wait i crew => exact h w (hw crew rfl)
  | setShutdown i crew => exact h w (hw crew rfl)
  | join i crew rest => exact h.2 w fun hmem => hw crew rfl (h.1.subset hmem)
  | _ => exact h w

variable [DecidableEq ι]

/-- Only a worker of the crew consumes while some thread is in `enqueue`. -/
theorem State.Control.consumer (h : s.Control) (t' : Thread ι ω)
    (ht' : (s.ring.threads t').isEnqueue) {t : Thread ι ω} {p : ℕ}
    (ht : (s.ring.threads t).consumes = some p) :
    ∃ w crew, t = .worker w ∧ s.run.crew = some crew ∧ w ∈ crew := by
  have hdeq : (s.ring.threads t).isDequeue := by
    cases hpc : s.ring.threads t <;> simp [hpc, Ring.Pc.consumes, Ring.Pc.isDequeue] at ht ⊢
  have hbusy : s.ring.threads t ≠ .idle := by
    intro hidle
    rw [hidle] at hdeq
    cases hdeq
  cases t with
  | outside i =>
    exact absurd hdeq (Ring.Pc.not_isDequeue ((h.outside i).resolve_left hbusy))
  | destructor =>
    obtain ⟨hdrain, -⟩ := h.destructor.resolve_left hbusy
    have hcrew := h.crew
    rw [hdrain] at hcrew
    cases t' with
    | outside i =>
      have hidle := h.excluded i (by rw [hdrain]; rfl)
      rw [hidle] at ht'
      cases ht'
    | destructor => exact absurd hdeq (Ring.Pc.not_isDequeue ht')
    | worker w =>
      have hidle := h.workers w
      rw [hcrew w] at hidle
      rw [show s.ring.threads (.worker w) = .idle from hidle] at ht'
      cases ht'
  | worker w =>
    by_contra hnone
    have hoff : s.worker w = .off := h.crew.off fun crew hr hmem => hnone ⟨w, crew, rfl, hr, hmem⟩
    have hidle := h.workers w
    rw [hoff] at hidle
    exact hbusy hidle

/-- While a thread is inside `enqueue` and every other worker waits, nobody consumes. -/
theorem State.Control.no_consumer (h : s.Control) {t : Thread ι ω}
    (ht : (s.ring.threads t).isEnqueue)
    (hcrew : ∀ crew, s.run.crew = some crew → ∀ w ∈ crew,
      .worker w = t ∨ Waiting log2Ring s (.worker w)) (t' : Thread ι ω) (p : ℕ) :
    (s.ring.threads t').consumes ≠ some p := by
  intro hp
  obtain ⟨w, crew, rfl, hr, hmem⟩ := h.consumer t ht hp
  rcases hcrew crew hr w hmem with rfl | ⟨pos, task, hw, -⟩
  · cases hpc : s.ring.threads (.worker w) <;>
      simp [hpc, Ring.Pc.isEnqueue, Ring.Pc.consumes] at ht hp
  · rw [hw] at hp
    cases hp

omit [DecidableEq ι] in
/-- With no position being consumed, a thread waits only for a position beyond the ring. -/
theorem Waiting.beyond (hinv : Ring.Inv (kRingSize log2Ring) L s.ring) (hlo : 1 ≤ log2Ring)
    (hnone : ∀ t p, (s.ring.threads t).consumes ≠ some p) {t : Thread ι ω}
    (h : Waiting log2Ring s t) : Beyond (kRingSize log2Ring) s t := by
  have hN := Ring.two_le_kRingSize hlo
  obtain ⟨pos, task, ht, hne⟩ := h
  refine ⟨pos, task, ht, ?_⟩
  by_contra hlt
  obtain ⟨-, hle⟩ : Ring.PcOk _ L s.ring (.await pos task) := ht ▸ hinv.pcs t
  rw [Ring.slot_eq] at hne
  obtain ⟨q, hslot, hqlt, hqle, hold⟩ := hinv.slots (pos % kRingSize log2Ring)
    (Nat.mod_lt pos (by omega))
  have hq := Ring.mod_cases hslot
  have hfull : s.ring.sequence (pos % kRingSize log2Ring) = q + 1 ∧ q < s.ring.tail := by omega
  obtain ⟨t', ht'⟩ := hinv.consumed q hfull.2 (hslot ▸ hfull.1)
  exact hnone t' q ht'

/-- A scheduler is blocked exactly when all that could consume wait beyond the ring. -/
theorem blocked_iff (hinv : Ring.Inv (kRingSize log2Ring) L s.ring) (hlo : 1 ≤ log2Ring)
    (h : s.Control) : Blocked log2Ring s ↔ Doomed (kRingSize log2Ring) s := by
  constructor
  · intro hb
    obtain ⟨t₀, pos₀, task₀, ht₀, -⟩ := hb.1
    have hnone := h.no_consumer (t := t₀) (by rw [ht₀]; rfl) fun crew hr w hw =>
      .inr (hb.2 crew hr w hw)
    exact ⟨hb.1.imp fun t ht => ht.beyond hinv hlo hnone,
      fun crew hr w hw => (hb.2 crew hr w hw).beyond hinv hlo hnone⟩
  · intro hd
    exact ⟨hd.1.imp fun t ht => ht.waiting hinv hlo,
      fun crew hr w hw => (hd.2 crew hr w hw).waiting hinv hlo⟩

section Steps
variable [DecidableEq ω]

omit [DecidableEq ι] [DecidableEq ω] in
theorem ringLabel_access {t : Thread ι ω} {spurious : Bool}
    (h : ringLabel s a = some (.access t spurious)) : a = .access t spurious := by
  cases a with
  | access t' spurious' =>
    cases h
    rfl
  | worker w =>
    cases hw : s.worker w <;> simp [ringLabel, hw] at h
  | runner =>
    simp only [ringLabel] at h
    split at h <;> cases h
  | drain =>
    simp only [ringLabel] at h
    split at h <;> cases h
  | submit i task => cases h
  | spawn w task => cases h
  | finish w => cases h
  | run i crew => cases h
  | destroy => cases h

/-- The wait beyond the ring of a thread begins with its reservation on a full ring. -/
theorem beyond_of_step [Fintype ι] (hinv : Ring.Inv (kRingSize log2Ring) L s.ring)
    (hlen : s.ring.head < 2 ^ 63) (hs : step log2Ring s a = some s') {t : Thread ι ω}
    (h : Beyond (kRingSize log2Ring) s' t) :
    Beyond (kRingSize log2Ring) s t ∨ ∃ spurious task, a = .access t spurious ∧
      s.ring.threads t = .reserve task ∧ s.ring.tail + kRingSize log2Ring ≤ s.ring.head := by
  obtain ⟨u, r, -, hr, rfl⟩ := step_effect hs
  obtain ⟨pos, task, ht, hle⟩ := h
  cases hl : ringLabel s a with
  | none =>
    obtain rfl := ring_same hr hl
    exact .inl ⟨pos, task, ht, hle⟩
  | some e =>
    rw [hl] at hr
    have htail := Ring.tail_le hinv hlen hr
    rcases Ring.await_cases hr ht with hsame | ⟨⟨spurious, rfl⟩, hres, rfl, hkeep⟩
    · exact .inl ⟨pos, task, hsame, by change r.tail + _ ≤ _ at hle; omega⟩
    · refine .inr ⟨spurious, task, ringLabel_access hl, hres, ?_⟩
      change r.tail + _ ≤ _ at hle
      rwa [hkeep] at hle

/-- The crew changes only while no thread is inside `enqueue`. -/
theorem crew_of_step {s s' : State Unit ω α} {a : Action Unit ω α} (h : s.Control)
    (hs : step log2Ring s a = some s') :
    s'.run.crew = s.run.crew ∨ s'.ring = s.ring ∧ ∀ t, s.ring.threads t = .idle := by
  obtain ⟨u, r, he, hr, rfl⟩ := step_effect hs
  have hall : (∀ w, s.worker w = .off) → s.run ≠ .draining →
      s.ring.threads (.outside ()) = .idle → ∀ t, s.ring.threads t = .idle := by
    intro hoff hdrain hi t
    cases t with
    | outside i => exact hi
    | worker w =>
      have hidle := h.workers w
      rw [hoff w] at hidle
      exact hidle
    | destructor => exact h.destructor.resolve_right fun hd => hdrain hd.1
  have hcrew := h.crew
  cases he with
  | run hrun hi hc =>
    obtain rfl := ring_same hr rfl
    rw [hrun] at hcrew
    exact .inr ⟨rfl, hall hcrew (by simp [hrun]) hi⟩
  | ret hrun =>
    obtain rfl := ring_same hr (by simp only [ringLabel, hrun])
    rw [hrun] at hcrew
    refine .inr ⟨rfl, hall (fun w => hcrew.2 w (by simp)) (by simp [hrun]) (h.excluded () ?_)⟩
    rw [hrun]
    rfl
  | _ => left; simp_all [RunPc.crew, State.setWorker]

/-- All consumers end up waiting beyond the ring by a step that starves it. -/
theorem doomed_of_step {s s' : State Unit ω α} {a : Action Unit ω α} (hlo : 1 ≤ log2Ring)
    (hinv : Ring.Inv (kRingSize log2Ring) L s.ring) (hlen : s.ring.head < 2 ^ 63) (h : s.Control)
    (hs : step log2Ring s a = some s') (hd : Doomed (kRingSize log2Ring) s') :
    Doomed (kRingSize log2Ring) s ∨ Starves log2Ring s a := by
  have hbefore := fun t => beyond_of_step (t := t) hinv hlen hs
  rcases crew_of_step h hs with hcrew | ⟨hring, hidle⟩
  · rw [Doomed, hcrew] at hd
    by_cases hres : ∃ t spurious task, a = .access t spurious ∧ s.ring.threads t = .reserve task ∧
        s.ring.tail + kRingSize log2Ring ≤ s.ring.head
    · obtain ⟨t, spurious, task, rfl, hpc, hfull⟩ := hres
      refine .inr ⟨t, spurious, task, rfl, hpc, hfull, fun crew hr w hw => ?_⟩
      rcases hbefore _ (hd.2 crew hr w hw) with hb | ⟨spurious', task', ha, -⟩
      · exact .inr (hb.waiting hinv hlo)
      · cases ha
        exact .inl rfl
    · have hkeep : ∀ t, Beyond (kRingSize log2Ring) s' t → Beyond (kRingSize log2Ring) s t := by
        intro t ht
        rcases hbefore t ht with hb | ⟨spurious, task, hrest⟩
        · exact hb
        · exact absurd ⟨t, spurious, task, hrest⟩ hres
      exact .inl ⟨hd.1.imp hkeep, fun crew hr w hw => hkeep _ (hd.2 crew hr w hw)⟩
  · obtain ⟨⟨t, pos, task, ht, -⟩, -⟩ := hd
    rw [hring, hidle t] at ht
    cases ht

theorem doomed_of_starves [Fintype ι] (hlo : 1 ≤ log2Ring)
    (hinv : Ring.Inv (kRingSize log2Ring) L s.ring) (h : s.Control)
    (hs : step log2Ring s a = some s') (ho : Starves log2Ring s a) :
    Doomed (kRingSize log2Ring) s' := by
  obtain ⟨t, spurious, task, rfl, hpc, hfull, hcrew⟩ := ho
  have hnone := h.no_consumer (by rw [hpc]; rfl) hcrew
  have hbefore := fun crew hr w hw =>
    (hcrew crew hr w hw).imp_right fun hwait => hwait.beyond hinv hlo hnone
  obtain ⟨r, hr, rfl⟩ := onRing_eq_some.mp hs
  simp only [Ring.step, Ring.access, hpc, Option.some.injEq] at hr
  subst hr
  have hself : Beyond (kRingSize log2Ring) { s with ring :=
      { s.ring with head := uint64 (s.ring.head + 1) }.goto t (.await s.ring.head task) } t :=
    ⟨s.ring.head, task, Function.update_self _ _ _, hfull⟩
  refine ⟨⟨t, hself⟩, fun crew hc w hw => ?_⟩
  rcases hbefore crew hc w hw with rfl | ⟨pos, task', hwpc, hle⟩
  · exact hself
  · refine ⟨pos, task', ?_, hle⟩
    have hne : Thread.worker w ≠ t := by
      rintro rfl
      rw [hpc] at hwpc
      cases hwpc
    exact (Function.update_of_ne hne _ _).trans hwpc

/-- The workers of a `run` are distinct. -/
theorem crew_nodup [Fintype ι] {tr : List (State ι ω α × Action ι ω α)}
    (h : Run (machine ι ω α log2Ring) tr s) : ∀ crew, s.run.crew = some crew → crew.Nodup := by
  refine Run.invariant (I := fun s => ∀ crew, s.run.crew = some crew → crew.Nodup)
    (fun crew hr => by cases hr) ?_ h
  intro u a v hu hs crew hr
  obtain ⟨w, r, he, -, rfl⟩ := step_effect hs
  cases he with
  | run hrun hi hc =>
    cases hr
    exact hc
  | launch hrun => exact hu crew (by rw [hrun]; exact hr)
  | launched hrun => exact hu crew (by rw [hrun]; exact hr)
  | zero hrun => exact hu crew (by rw [hrun]; exact hr)
  | shutdown hrun => exact hu crew (by rw [hrun]; exact hr)
  | join hrun => exact hu crew (by rw [hrun]; exact hr)
  | ret => cases hr
  | destroy => cases hr
  | drained => cases hr
  | _ => exact hu crew hr

/-- During a `run` only its workers are inside `enqueue`. -/
theorem State.Control.producer {s : State Unit ω α} (h : s.Control) {crew : List ω}
    (hr : s.run.crew = some crew) {t : Thread Unit ω} (ht : (s.ring.threads t).isEnqueue) :
    ∃ w ∈ crew, t = .worker w := by
  have hbusy : s.ring.threads t ≠ .idle := by
    intro hidle
    rw [hidle] at ht
    cases ht
  cases t with
  | outside i =>
    refine absurd (h.excluded i ?_) hbusy
    cases hrun : s.run <;> simp [RunPc.crew, RunPc.excludes, hrun] at hr ⊢
  | destructor =>
    obtain ⟨hdrain, -⟩ := h.destructor.resolve_left hbusy
    rw [hdrain] at hr
    cases hr
  | worker w =>
    refine ⟨w, ?_, rfl⟩
    by_contra hmem
    have hoff : s.worker w = .off := h.crew.off fun crew' hr' => by
      obtain rfl : crew = crew' := Option.some.inj (hr.symm.trans hr')
      exact hmem
    have hidle := h.workers w
    rw [hoff] at hidle
    exact hbusy hidle

omit [DecidableEq ι] [DecidableEq ω] in
/-- A thread that has reserved a position beyond the ring waits for it. -/
theorem waiting_of_produces {s : State ι ω α} (hinv : Ring.Inv (kRingSize log2Ring) L s.ring)
    (hlo : 1 ≤ log2Ring) {t : Thread ι ω} {pos : ℕ} (ht : (s.ring.threads t).produces = some pos)
    (hpos : s.ring.tail + kRingSize log2Ring ≤ pos) : Waiting log2Ring s t := by
  have hfree := hinv.free (p := pos) (Ring.two_le_kRingSize hlo)
  have hok := hinv.pcs t
  cases hpc : s.ring.threads t <;> rw [hpc] at ht hok <;>
    simp only [Ring.Pc.produces, Option.some.injEq, reduceCtorEq] at ht <;> subst ht
  · refine ⟨_, _, hpc, fun hseq => ?_⟩
    rw [Ring.slot_eq] at hseq
    have hlt := hfree hseq
    omega
  · have hlt := hfree hok.2
    omega
  · have hlt := hfree hok.2.1
    omega

omit [DecidableEq ι] [DecidableEq ω] in
/-- Every position reserved beyond the ring has a thread that waits for it. -/
theorem produces_of_beyond {s : State ι ω α} (hinv : Ring.Inv (kRingSize log2Ring) L s.ring)
    (hlo : 1 ≤ log2Ring) {pos : ℕ}
    (hpos : pos ∈ Finset.Ico (s.ring.tail + kRingSize log2Ring) s.ring.head) :
    ∃ t, (s.ring.threads t).produces = some pos := by
  obtain ⟨hle, hlt⟩ := Finset.mem_Ico.mp hpos
  obtain ⟨q, hq, hqlt, -, hseq⟩ := hinv.slot_of (Ring.two_le_kRingSize hlo) pos
  exact hinv.produced pos hlt (by omega)

omit [DecidableEq ι] [DecidableEq ω] in
theorem isEnqueue_of_produces {pc : Ring.Pc α} {pos : ℕ} (h : pc.produces = some pos) :
    pc.isEnqueue := by
  cases pc <;> simp [Ring.Pc.produces] at h <;> rfl

/-- At a fill level with a position beyond the ring for every other worker, each of them waits. -/
theorem waiting_of_full {s : State Unit ω α} (hinv : Ring.Inv (kRingSize log2Ring) L s.ring)
    (hlo : 1 ≤ log2Ring) (h : s.Control) {crew : List ω} (hr : s.run.crew = some crew)
    (hnodup : crew.Nodup) {w₀ : ω} (hw₀ : w₀ ∈ crew) {task : α}
    (ht : s.ring.threads (.worker w₀) = .reserve task)
    (hfull : s.ring.tail + kRingSize log2Ring + (crew.length - 1) ≤ s.ring.head) {w : ω}
    (hw : w ∈ crew) (hne : w ≠ w₀) : Waiting log2Ring s (.worker w) := by
  by_contra hno
  have hmaps : ∀ pos ∈ Finset.Ico (s.ring.tail + kRingSize log2Ring) s.ring.head,
      ∃ w' ∈ (crew.toFinset.erase w₀).erase w,
        (s.ring.threads (.worker w')).produces = some pos := by
    intro pos hpos
    obtain ⟨t, hprod⟩ := produces_of_beyond hinv hlo hpos
    obtain ⟨w', hw', rfl⟩ := h.producer hr (isEnqueue_of_produces hprod)
    refine ⟨w', ?_, hprod⟩
    have hne' : w' ≠ w := by
      rintro rfl
      exact hno (waiting_of_produces hinv hlo hprod (Finset.mem_Ico.mp hpos).1)
    have hne₀ : w' ≠ w₀ := by
      rintro rfl
      rw [ht] at hprod
      cases hprod
    simp [hne', hne₀, hw']
  have hcard := Finset.card_le_card_of_forall_subsingleton
    (fun pos w' => (s.ring.threads (.worker w')).produces = some pos) hmaps
    fun w' _ pos hpos pos' hpos' => Option.some.inj (hpos.2.symm.trans hpos'.2)
  have hpos := List.length_pos_of_mem hw
  rw [Finset.card_erase_of_mem (by simp [hne, hw]),
    Finset.card_erase_of_mem (List.mem_toFinset.mpr hw₀), List.toFinset_card_of_nodup hnodup,
    Nat.card_Ico] at hcard
  have htwo : 2 ≤ crew.length := by
    have hsub : ({w, w₀} : Finset ω) ⊆ crew.toFinset := by
      intro x hx
      rcases (by simpa using hx : x = w ∨ x = w₀) with rfl | rfl
      · simpa using hw
      · simpa using hw₀
    have hle := Finset.card_le_card hsub
    rwa [Finset.card_pair hne, List.toFinset_card_of_nodup hnodup] at hle
  omega

/-- Where every other worker waits, a position beyond the ring is reserved for each of them. -/
theorem full_of_waiting {s : State Unit ω α} (hinv : Ring.Inv (kRingSize log2Ring) L s.ring)
    {crew : List ω} (hnodup : crew.Nodup) {w₀ : ω} (hw₀ : w₀ ∈ crew)
    (hle : s.ring.tail + kRingSize log2Ring ≤ s.ring.head)
    (hwait : ∀ w ∈ crew, w ≠ w₀ → Beyond (kRingSize log2Ring) s (.worker w)) :
    s.ring.tail + kRingSize log2Ring + (crew.length - 1) ≤ s.ring.head := by
  have hmaps : ∀ w ∈ crew.toFinset.erase w₀,
      ∃ pos ∈ Finset.Ico (s.ring.tail + kRingSize log2Ring) s.ring.head,
        (s.ring.threads (.worker w)).produces = some pos := by
    intro w hw
    obtain ⟨hne, hmem⟩ := Finset.mem_erase.mp hw
    obtain ⟨pos, task, hpc, hpos⟩ := hwait w (List.mem_toFinset.mp hmem) hne
    have hprod : (s.ring.threads (.worker w)).produces = some pos := by
      rw [hpc]
      rfl
    have hlt := ((hinv.pcs _).produces hprod).1
    rw [← hinv.head] at hlt
    exact ⟨pos, Finset.mem_Ico.mpr ⟨hpos, hlt⟩, hprod⟩
  have hcard := Finset.card_le_card_of_forall_subsingleton
    (fun w pos => (s.ring.threads (.worker w)).produces = some pos) hmaps
    fun pos _ w hw w' hw' => Thread.worker.inj (hinv.producer _ _ pos hw.2 hw'.2)
  rw [Finset.card_erase_of_mem (List.mem_toFinset.mpr hw₀), List.toFinset_card_of_nodup hnodup,
    Nat.card_Ico] at hcard
  omega

/-- Each thread that waits has reserved one position beyond the ring, so the fill level tells
whether every other worker waits. -/
theorem overfills_iff {s : State Unit ω α} {a : Action Unit ω α} (hlo : 1 ≤ log2Ring)
    (hinv : Ring.Inv (kRingSize log2Ring) L s.ring) (h : s.Control)
    (hnodup : ∀ crew, s.run.crew = some crew → crew.Nodup) :
    Overfills log2Ring s a ↔ Starves log2Ring s a := by
  refine exists_congr fun t => exists_congr fun spurious => exists_congr fun task =>
    and_congr_right fun _ => and_congr_right fun hpc => ?_
  cases hr : s.run.crew with
  | none => simp [RunPc.others, hr]
  | some crew =>
    have henq : (s.ring.threads t).isEnqueue := by
      rw [hpc]
      rfl
    obtain ⟨w₀, hw₀, rfl⟩ := h.producer hr henq
    simp only [RunPc.others, hr, Option.some.injEq, forall_eq', Thread.worker.injEq]
    constructor
    · intro hfull
      refine ⟨by omega, fun w hw => or_iff_not_imp_left.mpr fun hne => ?_⟩
      exact waiting_of_full hinv hlo h hr (hnodup crew hr) hw₀ hpc hfull hw hne
    · rintro ⟨hle, hwait⟩
      refine full_of_waiting hinv (hnodup crew hr) hw₀ hle fun w hw hne => ?_
      have hcrew : ∀ crew', s.run.crew = some crew' → ∀ w ∈ crew',
          .worker w = (.worker w₀ : Thread Unit ω) ∨ Waiting log2Ring s (.worker w) := by
        intro crew' hr' w hw
        obtain rfl : crew = crew' := Option.some.inj (hr.symm.trans hr')
        simpa using hwait w hw
      exact ((hwait w hw).resolve_left hne).beyond hinv hlo (h.no_consumer henq hcrew)

end Steps

variable {s s' : State Unit ω α} [DecidableEq ω] [Fintype ω]
  {tr : List (State Unit ω α × Action Unit ω α)}

/-- A thread that submits and then runs, with fewer than `2^63` submissions, never blocks itself
on a full ring, provided that no position is reserved at a fill level of the ring and the other
workers of the `run` in progress; right after such a reservation the scheduler is blocked. -/
theorem never_blocked (h : Run (machine Unit ω α kLog2Ring) tr s)
    (hsmall : (log submitted tr).length < 2 ^ 63) :
    ((∀ e ∈ tr, ¬ Overfills kLog2Ring e.1 e.2) → ¬ Blocked kLog2Ring s) ∧
      ∀ a s', step kLog2Ring s a = some s' → Overfills kLog2Ring s a → Blocked kLog2Ring s' := by
  have hlo : 1 ≤ kLog2Ring := by decide
  have hhi : kLog2Ring ≤ 63 := by decide
  refine ⟨fun hC => ?_, fun a s' hs ho => ?_⟩
  · rw [blocked_iff (ring_inv hlo hhi h hsmall) hlo (control_of_run h)]
    refine (Run.history_of (C := fun u a => ¬ Overfills kLog2Ring u a) (I := fun tr s => Run (machine Unit ω α kLog2Ring) tr s ∧
      ((log submitted tr).length < 2 ^ 63 → ¬ Doomed (kRingSize kLog2Ring) s))
      ⟨.nil, fun _ hd => ?_⟩ ?_ h hC).2 hsmall
    · obtain ⟨⟨t, pos, task, ht, -⟩, -⟩ := hd
      cases ht
    · rintro tr u a v ⟨hu, hI⟩ ha hs
      refine ⟨.snoc hu hs, fun hlen hd => ?_⟩
      have hlen' : (log submitted tr).length < 2 ^ 63 := by
        rw [log_snoc, List.length_append] at hlen
        omega
      have hinv := ring_inv hlo hhi hu hlen'
      have hhead : u.ring.head < 2 ^ 63 := by
        rw [hinv.head]
        exact (positions_length_le hu).trans_lt hlen'
      have hcontrol := control_of_run hu
      rw [overfills_iff hlo hinv hcontrol (crew_nodup hu)] at ha
      exact (doomed_of_step hlo hinv hhead hcontrol hs hd).elim (hI hlen') ha
  · have hrun : Run (machine Unit ω α kLog2Ring) (tr ++ [(s, a)]) s' := .snoc h hs
    have hlen : (log submitted (tr ++ [(s, a)])).length < 2 ^ 63 := by
      obtain ⟨t, spurious, task, rfl, -⟩ := ho
      rw [log_snoc]
      simpa [submitted] using hsmall
    rw [blocked_iff (ring_inv hlo hhi hrun hlen) hlo (control_of_run hrun)]
    have hinv := ring_inv hlo hhi h hsmall
    have hcontrol := control_of_run h
    rw [overfills_iff hlo hinv hcontrol (crew_nodup h)] at ho
    exact doomed_of_starves hlo hinv hcontrol hs ho

/-- The first `n` positions of the ring are published, none is claimed. -/
structure Filled (log2Ring n : ℕ) (s : State Unit Unit Unit) : Prop where
  run : s.run = .idle
  idle : s.ring.threads (.outside ()) = .idle
  head : s.ring.head = n
  tail : s.ring.tail = 0
  full : ∀ j < n, s.ring.sequence j = j + 1
  free : ∀ j, n ≤ j → j < kRingSize log2Ring → s.ring.sequence j = j

def fillOne : List (Action Unit Unit Unit) :=
  .submit () () :: List.replicate 4 (.access (.outside ()) false)

theorem Filled.next {log2Ring n : ℕ} (hhi : log2Ring ≤ 63) {s : State Unit Unit Unit}
    (h : Filled log2Ring n s) (hn : n < kRingSize log2Ring) :
    ∃ s', exec (machine Unit Unit Unit log2Ring) s fillOne = some s' ∧
      Filled log2Ring (n + 1) s' := by
  have hN := Ring.kRingSize_le hhi
  have hslot : slot log2Ring n = n := (Ring.slot_eq _ _).trans (Nat.mod_eq_of_lt hn)
  have hfree := h.free n le_rfl hn
  have hnext : uint64 (n + 1) = n + 1 := Ring.uint64_of_lt (by omega)
  refine ⟨_, by simp [exec, fillOne, machine, step, submit, State.onRing, Ring.step, Ring.access,
    h.run, h.idle, h.head, hslot, hfree, RunPc.excludes, Ring.State.goto, Ring.State.setPayload,
    Ring.State.setSequence, List.replicate]; rfl, ?_⟩
  refine ⟨rfl, by simp, hnext, h.tail, fun j hj => ?_, fun j hj hlt => ?_⟩
  · change Function.update s.ring.sequence n _ j = j + 1
    rcases Nat.lt_succ_iff_lt_or_eq.mp hj with hlt | rfl
    · rw [Function.update_of_ne hlt.ne]
      exact h.full j hlt
    · rw [Function.update_self, hnext]
  · change Function.update s.ring.sequence n _ j = j
    rw [Function.update_of_ne (by omega)]
    exact h.free j (by omega) hlt

theorem Filled.not_overfills {log2Ring n : ℕ} {s : State Unit Unit Unit}
    (h : Filled log2Ring n s) (hn : n < kRingSize log2Ring) :
    ∀ e ∈ record (machine Unit Unit Unit log2Ring) s fillOne, ¬ Overfills log2Ring e.1 e.2 := by
  have hslot : slot log2Ring n = n := (Ring.slot_eq _ _).trans (Nat.mod_eq_of_lt hn)
  have hfree := h.free n le_rfl hn
  have hother : ∀ {u : State Unit Unit Unit},
      (∀ task, u.ring.threads (.outside ()) ≠ .reserve task) →
      ¬ Overfills log2Ring u (.access (.outside ()) false) := by
    rintro u hu ⟨t, spurious, task, ha, hpc, -⟩
    cases ha
    exact hu task hpc
  simp only [record, fillOne, machine, step, submit, State.onRing, Ring.step, Ring.access, h.run,
    h.idle, h.head, hslot, hfree, RunPc.excludes, Ring.State.goto, Ring.State.setPayload,
    Ring.State.setSequence, List.replicate, Bool.false_eq_true, if_false, if_true, Option.map_some,
    Function.update_self, Function.update_idem, List.forall_mem_cons, List.not_mem_nil,
    false_imp_iff, implies_true, and_true]
  refine ⟨?_, ?_, hother (by simp), hother (by simp), hother (by simp)⟩
  · rintro ⟨t, spurious, task, ha, -⟩
    cases ha
  · rintro ⟨t, spurious, task, -, -, hfull⟩
    have htail := h.tail
    simp only [htail] at hfull
    omega

theorem exists_filled : ∀ n ≤ kRingSize kLog2Ring, ∃ tr s,
    Run (machine Unit Unit Unit kLog2Ring) tr s ∧ (log submitted tr).length = n ∧
      Filled kLog2Ring n s ∧ ∀ e ∈ tr, ¬ Overfills kLog2Ring e.1 e.2 := by
  intro n
  induction n with
  | zero =>
    exact fun _ => ⟨[], _, .nil, rfl,
      ⟨rfl, rfl, rfl, rfl, fun j hj => by omega, fun _ _ _ => rfl⟩, by simp⟩
  | succ n ih =>
    intro hn
    obtain ⟨tr, s, hrun, hlen, h, hC⟩ := ih (by omega)
    obtain ⟨s', hs, h'⟩ := h.next (by decide) hn
    refine ⟨_, s', hrun.append (exec_steps hs), ?_, h', fun e he => ?_⟩
    · rw [log_append, List.length_append, hlen,
        show log submitted (record _ s fillOne) = _ from log_record (o := submitted s) hs]
      rfl
    · exact (List.mem_append.mp he).elim (hC e) (h.not_overfills hn e)

/-- The ring is filled without blocking the thread; the next task then does. -/
theorem never_blocked_full_ring : ∃ tr s s', Run (machine Unit Unit Unit kLog2Ring) tr s ∧
    s.ring.head = s.ring.tail + kRingSize kLog2Ring ∧ ¬ Blocked kLog2Ring s ∧
    step kLog2Ring s (.access (.outside ()) false) = some s' ∧ Blocked kLog2Ring s' := by
  obtain ⟨tr, s, hrun, hlen, h, hC⟩ := exists_filled _ le_rfl
  let s₁ : State Unit Unit Unit :=
    { s with
      pending := int64 (s.pending + 1)
      ring := s.ring.goto (.outside ()) (.reserve ()) }
  have hsubmit : (machine Unit Unit Unit kLog2Ring).step s (.submit () ()) = some s₁ := by
    simp [machine, step, submit, State.onRing, Ring.step, h.run, h.idle, RunPc.excludes, s₁]
  have hreserve : s₁.ring.threads (.outside ()) = .reserve () := Ring.goto_self _ _ _
  obtain ⟨s', hstep⟩ : ∃ s', step kLog2Ring s₁ (.access (.outside ()) false) = some s' := by
    refine Option.isSome_iff_exists.mp ?_
    simp [step, State.onRing, Ring.step, Ring.access, hreserve]
  have hsmall : (log submitted (tr ++ [(s, .submit () ())])).length < 2 ^ 63 := by
    rw [log_snoc, List.length_append, hlen]
    exact (by decide : kRingSize kLog2Ring + 1 < 2 ^ 63)
  have hfull := never_blocked (hrun.snoc hsubmit) hsmall
  have hnone : ∀ e ∈ tr ++ [(s, .submit () ())], ¬ Overfills kLog2Ring e.1 e.2 := by
    intro e he
    rcases List.mem_append.mp he with he | he
    · exact hC e he
    · rw [List.mem_singleton.mp he]
      rintro ⟨t, spurious, task, ha, -⟩
      cases ha
  have hlevel : s.ring.head = s.ring.tail + kRingSize kLog2Ring := by
    rw [h.head, h.tail, Nat.zero_add]
  refine ⟨_, s₁, s', hrun.snoc hsubmit, hlevel, hfull.1 hnone, hstep, hfull.2 _ s' hstep ?_⟩
  refine ⟨.outside (), false, (), rfl, hreserve, ?_⟩
  simp only [RunPc.others, s₁, h.run, RunPc.crew]
  exact hlevel.ge

/-- A thread that waits in `enqueue` while no `run` is in progress. -/
theorem blocked_of_wait {s : State Unit Unit Unit} (hrun : s.run = .idle)
    (h : Waiting kLog2Ring s (.outside ())) : Blocked kLog2Ring s :=
  ⟨⟨_, h⟩, fun crew hr => by rw [hrun] at hr; cases hr⟩

/-- After `2 ^ 17` tasks the thread that submits one more waits for ever. -/
theorem full_ring_blocks : ∃ tr s, Run (machine Unit Unit Unit kLog2Ring) tr s ∧
    (log submitted tr).length = 2 ^ 17 + 1 ∧ Blocked kLog2Ring s := by
  obtain ⟨tr, s, hrun, hlen, h, -⟩ := exists_filled _ le_rfl
  have hslot : slot kLog2Ring (kRingSize kLog2Ring) = 0 :=
    (Ring.slot_eq _ _).trans (Nat.mod_self _)
  have hen : exec (machine Unit Unit Unit kLog2Ring) s
      [.submit () (), .access (.outside ()) false] = some
        { s with
          pending := int64 (s.pending + 1)
          ring := { s.ring with head := uint64 (s.ring.head + 1) }.goto (.outside ())
            (.await (kRingSize kLog2Ring) ()) } := by
    simp [exec, machine, step, submit, State.onRing, Ring.step, Ring.access, h.run, h.idle, h.head,
      RunPc.excludes, Ring.State.goto]
  refine ⟨_, _, hrun.append (exec_steps hen), ?_, blocked_of_wait h.run
    ⟨kRingSize kLog2Ring, (), by simp, ?_⟩⟩
  · rw [log_append, List.length_append, hlen,
      show log submitted (record _ s _) = _ from log_record (o := submitted s) hen]
    rfl
  · rw [hslot]
    exact (h.full 0 (by decide)).trans_ne (by decide)

end TaskScheduler.LockFree
