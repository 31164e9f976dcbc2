import TaskScheduler.LockFreeInvariant
import TaskScheduler.RingAnswers

/-!
# Every task of the lock-free scheduler runs once

The tasks submitted, as a multiset, are those completed, those deleted by the destructor,
and those that wait to be enqueued, are in the ring, have been claimed or are with a
worker; `pending_` counts them until they are completed.
-/
namespace TaskScheduler.LockFree
open Transition

/-- The task that the worker runs, or has run and not counted off yet. -/
def WorkerPc.own {α : Type*} : WorkerPc α → Multiset α
  | .running task | .submitting task | .decrement task => {task}
  | _ => 0

/-- Two observers that share the steps of a third. -/
theorem log_add {σ ℓ α : Type*} {o o₁ o₂ : σ → ℓ → Option α}
    (h : ∀ s a, ((o s a).toList : Multiset α) = (o₁ s a).toList + (o₂ s a).toList)
    (tr : List (σ × ℓ)) : (log o tr : Multiset α) = log o₁ tr + log o₂ tr := by
  induction tr using List.reverseRecOn with
  | nil => rfl
  | append_singleton tr e ih =>
    obtain ⟨s, a⟩ := e
    simp only [log_snoc, ← Multiset.coe_add, ih, h]
    abel

variable {ι ω α : Type*}

/-- The tasks with the workers. -/
def owned [Fintype ω] (worker : ω → WorkerPc α) : Multiset α := ∑ w, (worker w).own

variable [DecidableEq ι] [DecidableEq ω] {log2Ring : ℕ} {s s' u : State ι ω α} {a : Action ι ω α}

theorem owned_update [Fintype ω] {worker : ω → WorkerPc α} {w : ω} {pc : WorkerPc α}
    {out inn : Multiset α} (h : pc.own + out = (worker w).own + inn) :
    owned (Function.update worker w pc) + out = owned worker + inn :=
  Counting.sum_move (Finset.mem_univ w) h

/-- What the workers have changes by what they start and complete. -/
theorem owned_effect [Fintype ω] (h : Effect s a u) (hc : s.Control) :
    owned u.worker + ((completed s a).toList : Multiset α) =
      owned s.worker + (started s a).toList := by
  cases h with
  | spawn hw => exact owned_update (by simp [hw, WorkerPc.own, completed, started])
  | take hw ht => exact owned_update (by simp [hw, ht, WorkerPc.own, completed, started])
  | empty hw ht => exact owned_update (by simp [hw, ht, WorkerPc.own, completed, started])
  | submitted hw ht => exact owned_update (by simp [hw, WorkerPc.own, completed, started])
  | decrement hw => exact owned_update (by simp [hw, WorkerPc.own, completed, started])
  | exit hw hs => exact owned_update (by simp [hw, WorkerPc.own, completed, started])
  | retry hw hs => exact owned_update (by simp [hw, WorkerPc.own, completed, started])
  | finish hw => exact owned_update (by simp [hw, WorkerPc.own, completed, started])
  | launch hr =>
    have hoff := hc.crew
    rw [hr] at hoff
    exact owned_update (by simp [hoff.2.2 _ (.inr List.mem_cons_self), WorkerPc.own, completed,
      started])
  | join hr hw => exact owned_update (by simp [hw, WorkerPc.own, completed, started])
  | _ => rfl

theorem int64_of_lt {x : ℤ} (hlo : 0 ≤ x) (hhi : x < 2 ^ 63) : int64 x = x :=
  Int.bmod_eq_of_le (by omega) (by omega)

/-- `pending_` changes by what the step submits and completes, as long as it fits. -/
theorem pending_effect (h : Effect s a u)
    (hlo : 0 ≤ s.pending + (submitted s a).toList.length - (completed s a).toList.length)
    (hhi : s.pending + (submitted s a).toList.length - (completed s a).toList.length < 2 ^ 63) :
    u.pending = s.pending + (submitted s a).toList.length - (completed s a).toList.length := by
  have hfit := int64_of_lt hlo hhi
  cases h with
  | submit hx => simpa [submitted, completed] using hfit
  | spawn hw => simpa [submitted, completed] using hfit
  | decrement hw => simpa [submitted, completed, hw, State.setWorker, ← sub_eq_add_neg] using hfit
  | take hw ht => simp [submitted, completed, hw, State.setWorker]
  | empty hw ht => simp [submitted, completed, hw, State.setWorker]
  | submitted hw ht => simp [submitted, completed, hw, State.setWorker]
  | exit hw hs => simp [submitted, completed, hw, State.setWorker]
  | retry hw hs => simp [submitted, completed, hw, State.setWorker]
  | _ => simp [submitted, completed, State.setWorker]

/-- What the caller of `dequeue` receives is started by a worker or deleted by the destructor. -/
theorem fetched_eq [Fintype ι] (tr : List (State ι ω α × Action ι ω α)) :
    (log Ring.fetched ((refinement ι ω α log2Ring).trace tr) : Multiset α) =
      log started tr + log deleted tr := by
  rw [Refinement.log_map]
  refine log_add (fun s a => ?_) tr
  cases a with
  | worker w =>
    cases hw : s.worker w <;> simp [refinement, ringLabel, hw, started, deleted, Ring.fetched]
    cases ht : s.ring.threads (.worker w) <;> simp
  | runner =>
    cases hr : s.run with
    | launch i crew rest => cases rest <;> simp [refinement, ringLabel, hr, started, deleted, Ring.fetched]
    | _ => simp [refinement, ringLabel, hr, started, deleted]
  | drain =>
    cases ht : s.ring.threads .destructor <;>
      simp [refinement, ringLabel, ht, started, deleted, Ring.fetched]
  | _ => simp [refinement, ringLabel, started, deleted, Ring.fetched]

variable [Fintype ι] [Fintype ω] {tr : List (State ι ω α × Action ι ω α)}

/-- The tasks started are those completed and those with the workers. -/
theorem started_eq (h : Run (machine ι ω α log2Ring) tr s) :
    (log started tr : Multiset α) = log completed tr + owned s.worker := by
  refine (Run.history (I := fun tr s => s.Control ∧
    (log started tr : Multiset α) = (log completed tr : Multiset α) + owned s.worker)
    ⟨control_init, by simp [owned, machine, WorkerPc.own]⟩ ?_ h).2
  rintro tr u a v ⟨hc, ih⟩ hs
  refine ⟨control_step hc hs, ?_⟩
  obtain ⟨w, r, he, -, rfl⟩ := step_effect hs
  have hmove := owned_effect he hc
  rw [log_snoc, log_snoc, ← Multiset.coe_add, ← Multiset.coe_add, ih, add_assoc, ← hmove]
  abel

/-- The tasks submitted that are neither completed nor deleted: on the way to a position of the
ring, between its cursors, claimed, or with a worker. -/
def State.outstanding (L : List α) (s : State ι ω α) : Multiset α :=
  Ring.inHand Ring.Pc.reserving s.ring + (L.drop s.ring.tail : List α) +
    Ring.inHand (Ring.Pc.carrying L) s.ring + owned s.worker

theorem submitted_eq (hlo : 1 ≤ log2Ring) (hhi : log2Ring ≤ 63)
    (h : Run (machine ι ω α log2Ring) tr s) (hsmall : (log submitted tr).length < 2 ^ 63) :
    (log submitted tr : Multiset α) = log completed tr + log deleted tr +
      s.outstanding (positions log2Ring tr) := by
  have hring := ring_run h
  have hres := Ring.reserved_eq hlo hhi hring ((positions_length_le h).trans_lt hsmall)
  rw [← log_enqueued log2Ring tr, Ring.enqueued_eq hring, hres, fetched_eq,
    started_eq h, State.outstanding, positions]
  simp only [refinement]
  abel

/-- `pending_` counts the tasks submitted and not completed. -/
theorem pending_eq (hlo : 1 ≤ log2Ring) (hhi : log2Ring ≤ 63)
    (h : Run (machine ι ω α log2Ring) tr s) (hsmall : (log submitted tr).length < 2 ^ 63) :
    s.pending = (log submitted tr).length - (log completed tr).length := by
  refine (Run.history (I := fun tr s => Run (machine ι ω α log2Ring) tr s ∧
    ((log submitted tr).length < 2 ^ 63 →
      s.pending = (log submitted tr).length - (log completed tr).length))
    ⟨.nil, fun _ => rfl⟩ ?_ h).2 hsmall
  rintro tr u a v ⟨hu, ih⟩ hs
  refine ⟨.snoc hu hs, fun hlen => ?_⟩
  have hv : Run (machine ι ω α log2Ring) (tr ++ [(u, a)]) v := .snoc hu hs
  have hcard := congrArg Multiset.card (submitted_eq hlo hhi hv hlen)
  rw [log_snoc, log_snoc] at hcard
  rw [log_snoc] at hlen
  rw [log_snoc, log_snoc]
  simp only [List.length_append, Multiset.card_add, Multiset.coe_card] at hlen hcard ⊢
  have hold := ih (by omega)
  obtain ⟨w, r, he, -, rfl⟩ := step_effect hs
  have hmove := pending_effect he (by omega) (by omega)
  rw [show ({ w with ring := r } : State ι ω α).pending = w.pending from rfl]
  omega

/-- `run` leaves its wait loop by this step. -/
def ReadsZero (s : State ι ω α) (a : Action ι ω α) : Prop :=
  a = .runner ∧ ∃ i crew, s.run = .wait i crew ∧ ¬ s.pending > 0

section Counter
variable (hlo : 1 ≤ log2Ring) (hhi : log2Ring ≤ 63) (h : Run (machine ι ω α log2Ring) tr s)
  (hsmall : (log submitted tr).length < 2 ^ 63)
include hlo hhi h hsmall

theorem pending_eq_card :
    s.pending = (s.outstanding (positions log2Ring tr)).card + (log deleted tr).length := by
  have hcard := congrArg Multiset.card (submitted_eq hlo hhi h hsmall)
  have hpend := pending_eq hlo hhi h hsmall
  simp only [Multiset.card_add, Multiset.coe_card] at hcard
  omega

/-- Where `pending_` is zero, every task submitted has been completed. -/
theorem completed_of_pending (hzero : ¬ s.pending > 0) :
    (log completed tr : Multiset α) = log submitted tr ∧
      s.outstanding (positions log2Ring tr) = 0 := by
  have hcard := pending_eq_card hlo hhi h hsmall
  have hout : s.outstanding (positions log2Ring tr) = 0 := Multiset.card_eq_zero.mp (by omega)
  have hdel : log deleted tr = [] := List.eq_nil_of_length_eq_zero (by omega)
  rw [submitted_eq hlo hhi h hsmall, hout, hdel]
  simp

theorem started_le : (log started tr : Multiset α) ≤ log submitted tr := by
  rw [started_eq h, submitted_eq hlo hhi h hsmall, State.outstanding, add_assoc]
  refine add_le_add_right ?_ _
  rw [← add_assoc]
  exact Multiset.le_add_left _ _

end Counter

section Return
variable {pre post : List (State ι ω α × Action ι ω α)}

omit [DecidableEq ι] [DecidableEq ω] [Fintype ι] [Fintype ω] in
theorem log_of_read {o : State ι ω α → Action ι ω α → Option α} (ho : o u a = none) :
    log o (pre ++ (u, a) :: post) = log o pre ++ log o post := by
  rw [log_append, List.append_cancel_left_eq, ← List.singleton_append, log_append]
  simp [log, ho]

/-- What is outstanding was submitted after any read of `pending_` as zero. -/
theorem outstanding_le (hlo : 1 ≤ log2Ring) (hhi : log2Ring ≤ 63)
    (h : Run (machine ι ω α log2Ring) (pre ++ (u, a) :: post) s) (hread : ReadsZero u a)
    (hsmall : (log submitted (pre ++ (u, a) :: post)).length < 2 ^ 63) :
    s.outstanding (positions log2Ring (pre ++ (u, a) :: post)) ≤ log submitted post := by
  obtain ⟨rfl, i, crew, hrun, hzero⟩ := hread
  have hall := submitted_eq hlo hhi h hsmall
  rw [log_of_read rfl] at hall hsmall
  rw [log_of_read (o := completed) rfl] at hall
  rw [List.length_append] at hsmall
  obtain ⟨hpre, -⟩ := completed_of_pending hlo hhi h.split_at.1 (by omega) hzero
  rw [← Multiset.coe_add, ← Multiset.coe_add, hpre, add_assoc, add_assoc, add_right_inj] at hall
  rw [hall, ← add_assoc]
  exact Multiset.le_add_left _ _

omit [DecidableEq ι] [DecidableEq ω] in
/-- With nothing outstanding, no worker has a task. -/
theorem own_eq_zero {L : List α} (h : s.outstanding L = 0) (w : ω) : (s.worker w).own = 0 :=
  Finset.sum_eq_zero_iff.mp (add_eq_zero.mp h).2 w (Finset.mem_univ w)

/-- With nothing outstanding, only a thread outside submits. -/
theorem submitted_outside {L : List α} (h : s.outstanding L = 0)
    (hs : step log2Ring s a = some s') : submitted s a = submittedOutside s a := by
  cases a with
  | spawn w task =>
    have hown := own_eq_zero h w
    cases hw : s.worker w <;> simp [step, hw] at hs
    simp [hw, WorkerPc.own] at hown
  | _ => rfl

/-- Without a submission from outside since the read, everything stays completed. -/
theorem outstanding_eq_zero (hlo : 1 ≤ log2Ring) (hhi : log2Ring ≤ 63)
    (h : Run (machine ι ω α log2Ring) (pre ++ (u, a) :: post) s) (hread : ReadsZero u a)
    (hsmall : (log submitted (pre ++ (u, a) :: post)).length < 2 ^ 63)
    (hquiet : log submittedOutside post = []) :
    s.outstanding (positions log2Ring (pre ++ (u, a) :: post)) = 0 := by
  suffices hnone : log submitted post = [] by
    have hle := outstanding_le hlo hhi h hread hsmall
    rwa [hnone, Multiset.coe_nil, Multiset.le_zero] at hle
  induction post using List.reverseRecOn generalizing s with
  | nil => rfl
  | append_singleton post e ih =>
    obtain ⟨v, b⟩ := e
    rw [← List.cons_append, ← List.append_assoc] at h hsmall
    obtain ⟨hv, hs⟩ := h.last
    rw [log_snoc, List.length_append] at hsmall
    rw [log_snoc, List.append_eq_nil_iff] at hquiet
    have hnone := ih hv (by omega) hquiet.1
    have hout := outstanding_le hlo hhi hv hread (by omega)
    rw [hnone, Multiset.coe_nil, Multiset.le_zero] at hout
    rw [log_snoc, hnone, submitted_outside hout hs]
    exact hquiet.2

end Return

section Quiescent
variable {L : List α}

omit [DecidableEq ω] [Fintype ι] [Fintype ω] in
/-- When `run` has joined its workers, only threads outside are inside the ring. -/
theorem State.Control.outside_of_join (h : s.Control) {i : ι} {crew : List ω}
    (hrun : s.run = .join i crew []) (t : Thread ι ω) :
    s.ring.threads t = .idle ∨ (s.ring.threads t).isEnqueue := by
  have hcrew := h.crew
  rw [hrun] at hcrew
  cases t with
  | outside i => exact h.outside i
  | worker w =>
    have hok := h.workers w
    rw [hcrew.2 w (by simp)] at hok
    exact .inl hok
  | destructor => exact .inl (h.destructor.resolve_right fun hd => by simp [hrun] at hd)

omit [DecidableEq ω] in
/-- With no thread inside `dequeue`, what is outstanding is in the ring or being enqueued. -/
theorem outstanding_of_join (h : s.Control) {i : ι} {crew : List ω}
    (hrun : s.run = .join i crew []) : s.outstanding L =
      Ring.inHand Ring.Pc.reserving s.ring + (L.drop s.ring.tail : List α) := by
  have hcrew := h.crew
  rw [hrun] at hcrew
  have hown : owned s.worker = 0 :=
    Finset.sum_eq_zero fun w _ => by rw [hcrew.2 w (by simp)]; rfl
  have hcarry : Ring.inHand (Ring.Pc.carrying L) s.ring = 0 := by
    refine Finset.sum_eq_zero fun t _ => ?_
    rcases h.outside_of_join hrun t with hpc | hpc
    · rw [hpc]
      rfl
    · cases hth : s.ring.threads t <;> simp_all [Ring.Pc.isEnqueue, Ring.Pc.carrying]
  rw [State.outstanding, hown, hcarry, add_zero, add_zero]

omit [DecidableEq ι] [DecidableEq ω] in
/-- A ring with nothing outstanding is ready for its next `kRingSize` positions. -/
theorem ring_ready (hlo : 1 ≤ log2Ring) (hinv : Ring.Inv (kRingSize log2Ring) L s.ring)
    (hidle : ∀ t, s.ring.threads t = .idle ∨ (s.ring.threads t).isEnqueue)
    (hout : s.outstanding L = 0) : s.ring.head = s.ring.tail ∧
      ∀ q, s.ring.head ≤ q → q < s.ring.head + kRingSize log2Ring →
        s.ring.sequence (slot log2Ring q) = q := by
  have hN := Ring.two_le_kRingSize hlo
  have hdrop : (L.drop s.ring.tail : Multiset α) = 0 := by
    rw [State.outstanding, add_assoc, add_eq_zero, add_eq_zero] at hout
    exact hout.1.2
  rw [Multiset.coe_eq_zero, List.drop_eq_nil_iff, ← hinv.head] at hdrop
  have htail := hinv.tail
  refine ⟨by omega, fun q hle hlt => ?_⟩
  rw [Ring.slot_eq]
  obtain ⟨p, hp, hplt, -, hseq⟩ := hinv.slots (q % kRingSize log2Ring) (Nat.mod_lt q (by omega))
  have hcases := Ring.mod_cases hp
  rcases hseq with ⟨hseq, hge⟩ | ⟨hseq, hge⟩
  · omega
  · obtain ⟨t, ht⟩ := hinv.consumed p (by omega) (hp ▸ hseq)
    rcases hidle t with hpc | hpc
    · rw [hpc] at ht
      cases ht
    · cases hth : s.ring.threads t <;> simp_all [Ring.Pc.isEnqueue, Ring.Pc.consumes]

end Quiescent

section Destructor
variable {L : List α}

/-- The destructor's `dequeue` is at `tail_`, and it finds the ring empty only where it is. -/
def Emptied (r : Ring.State (Thread ι ω) α) : Prop :=
  match r.threads .destructor with
  | .loadSequence pos | .claim pos => pos = r.tail
  | .returned none => r.head = r.tail
  | _ => True

structure DrainOk (s : State ι ω α) : Prop where
  draining : s.run = .draining → Emptied s.ring
  destroyed : s.run = .destroyed → s.ring.head = s.ring.tail

omit [Fintype ι] [Fintype ω] [DecidableEq ω] in
theorem State.Control.worker_off (h : s.Control)
    (hrun : s.run = .draining ∨ s.run = .destroyed) (w : ω) : s.worker w = .off := by
  have hcrew := h.crew
  rcases hrun with hrun | hrun <;> rw [hrun] at hcrew <;> exact hcrew w

omit [Fintype ι] [Fintype ω] [DecidableEq ω] in
/-- While the destructor runs, no other thread is inside the ring. -/
theorem State.Control.alone (h : s.Control) (hrun : s.run = .draining ∨ s.run = .destroyed)
    {t : Thread ι ω} (ht : t ≠ .destructor) : s.ring.threads t = .idle := by
  cases t with
  | outside i => exact h.excluded i (by rcases hrun with hrun | hrun <;> rw [hrun] <;> rfl)
  | worker w =>
    have hok := h.workers w
    rw [h.worker_off hrun] at hok
    exact hok
  | destructor => exact absurd rfl ht

omit [Fintype ι] [Fintype ω] in
theorem Emptied.access {r r' : Ring.State (Thread ι ω) α} {spurious : Bool} (h : Emptied r)
    (hlo : 1 ≤ log2Ring) (hhi : log2Ring ≤ 63) (hinv : Ring.Inv (kRingSize log2Ring) L r)
    (hlen : r.head < 2 ^ 63) (hidle : ∀ t, (r.threads t).produces = none)
    (hs : Ring.step log2Ring r (.access .destructor spurious) = some r') : Emptied r' := by
  have htail := hinv.tail
  have hok := hinv.pcs .destructor
  simp only [Ring.step] at hs
  cases hpc : r.threads .destructor with
  | loadTail =>
    simp only [Ring.access, hpc, Option.some.injEq] at hs
    subst hs
    simp [Emptied]
  | loadSequence pos =>
    rw [hpc] at hok
    simp only [Emptied, hpc] at h
    simp only [Ring.access, hpc] at hs
    split_ifs at hs with hzero hneg <;> cases hs
    · simpa [Emptied] using h
    · obtain ⟨-, hseq⟩ := hinv.of_diff_neg hlo hhi hlen hok hneg
      suffices hend : r.head = r.tail by simpa [Emptied] using hend
      by_contra hne
      obtain ⟨t, ht⟩ := hinv.produced r.tail (by omega) hseq
      rw [hidle t] at ht
      cases ht
    · simp [Emptied]
  | claim pos =>
    simp only [Ring.access, hpc] at hs
    split_ifs at hs <;> cases hs <;> simp [Emptied]
  | release pos raw =>
    rw [hpc] at hok
    obtain ⟨hlt, -, -, rfl⟩ := hok
    simp only [Ring.access, hpc, Option.some.injEq] at hs
    subst hs
    have hhead := hinv.head
    rw [List.getElem?_eq_getElem (by omega)]
    simp [Emptied]
  | await pos task =>
    simp only [Ring.access, hpc] at hs
    split_ifs at hs <;> cases hs
    · simp [Emptied]
    · exact h
  | idle => simp [Ring.access, hpc] at hs
  | returned task => simp [Ring.access, hpc] at hs
  | _ =>
    simp only [Ring.access, hpc, Option.some.injEq] at hs
    subst hs
    simp [Emptied]

omit [Fintype ω] in
theorem DrainOk.step (hlo : 1 ≤ log2Ring) (hhi : log2Ring ≤ 63)
    (hinv : Ring.Inv (kRingSize log2Ring) L s.ring) (hlen : s.ring.head < 2 ^ 63)
    (hc : s.Control) (h : DrainOk s) (hs : step log2Ring s a = some s') : DrainOk s' := by
  obtain ⟨u, r, he, hr, rfl⟩ := step_effect hs
  have hoff := hc.worker_off
  have honly : ∀ t spurious, a = .access t spurious → s.run = .draining ∨ s.run = .destroyed →
      t = .destructor := by
    rintro t spurious rfl hrun
    by_contra ht
    simp [ringStep, ringLabel, Ring.step, Ring.access, hc.alone hrun ht] at hr
  constructor
  · intro hdrain
    cases he with
    | access =>
      obtain rfl := honly _ _ rfl (.inl hdrain)
      refine (h.draining hdrain).access hlo hhi hinv hlen (fun t => ?_) hr
      rcases eq_or_ne t .destructor with rfl | ht
      · rcases hc.destructor with hpc | ⟨-, hpc⟩
        · rw [hpc]
          rfl
        · cases hth : s.ring.threads .destructor <;>
            simp_all [Ring.Pc.isDequeue, Ring.Pc.produces]
      · rw [hc.alone (.inl hdrain) ht]
        rfl
    | destroy hrun hi =>
      obtain rfl := ring_same hr rfl
      have hidle := hc.destructor.resolve_right fun hd => by simp [hrun] at hd
      simp [Emptied, hidle]
    | drain hrun ht =>
      rcases drain_threads hr with ⟨-, hth⟩ | ⟨-, hth⟩ <;> simp [Emptied, hth]
    | submit hx => simp_all [RunPc.excludes]
    | _ => simp_all [State.setWorker]
  · intro hdest
    cases he with
    | access =>
      obtain rfl := honly _ _ rfl (.inr hdest)
      have hidle := hc.destructor.resolve_right fun hd => by simp_all
      simp [ringStep, ringLabel, Ring.step, Ring.access, hidle] at hr
    | drained hrun ht =>
      have hend := h.draining hrun
      simp only [Emptied, ht] at hend
      simp only [ringLabel, ht, ringStep, Ring.step, Option.some.injEq] at hr
      subst hr
      exact hend
    | submit hx => simp_all [RunPc.excludes]
    | _ => simp_all [State.setWorker]

theorem drainOk_of_run (hlo : 1 ≤ log2Ring) (hhi : log2Ring ≤ 63)
    (h : Run (machine ι ω α log2Ring) tr s) (hsmall : (log submitted tr).length < 2 ^ 63) :
    DrainOk s := by
  refine (Run.history (I := fun tr s => Run (machine ι ω α log2Ring) tr s ∧
    ((log submitted tr).length < 2 ^ 63 → DrainOk s)) ⟨.nil, fun _ => ?_⟩ ?_ h).2 hsmall
  · exact ⟨fun hrun => (by cases hrun), fun hrun => (by cases hrun)⟩
  · rintro tr u a v ⟨hu, ih⟩ hs
    refine ⟨.snoc hu hs, fun hlen => ?_⟩
    have hlen' : (log submitted tr).length < 2 ^ 63 := by
      rw [log_snoc, List.length_append] at hlen
      omega
    have hinv := ring_inv hlo hhi hu hlen'
    have hhead : u.ring.head < 2 ^ 63 := by
      rw [hinv.head]
      exact (positions_length_le hu).trans_lt hlen'
    exact (ih hlen').step hlo hhi hinv hhead (control_of_run hu) hs

/-- Once the destructor has returned, every task has been completed or deleted. -/
theorem submitted_of_destroyed (hlo : 1 ≤ log2Ring) (hhi : log2Ring ≤ 63)
    (h : Run (machine ι ω α log2Ring) tr s) (hsmall : (log submitted tr).length < 2 ^ 63)
    (hrun : s.run = .destroyed) :
    (log submitted tr : Multiset α) = log completed tr + log deleted tr := by
  have hinv := ring_inv hlo hhi h hsmall
  have hc := control_of_run h
  have hend := (drainOk_of_run hlo hhi h hsmall).destroyed hrun
  have hdest := hc.destructor.resolve_right fun hd => by simp [hrun] at hd
  have hidle : ∀ t, s.ring.threads t = .idle := by
    intro t
    rcases eq_or_ne t .destructor with rfl | ht
    · exact hdest
    · exact hc.alone (.inr hrun) ht
  have hout : s.outstanding (positions log2Ring tr) = 0 := by
    rw [State.outstanding, List.drop_eq_nil_of_le (by rw [← hinv.head, hend])]
    simp [Ring.inHand, hidle, owned, hc.worker_off (.inr hrun), WorkerPc.own, Ring.Pc.reserving,
      Ring.Pc.carrying]
  rw [submitted_eq hlo hhi h hsmall, hout, add_zero]

end Destructor

/-- `run` is past its wait loop. -/
def RunPc.closing {ι ω : Type*} : RunPc ι ω → Bool
  | .setShutdown _ _ | .join _ _ _ => true
  | _ => false

omit [Fintype ω] in
/-- `run` gets past its wait loop only by reading `pending_` as zero, and returns before it is
called again. -/
theorem read_of_closing (h : Run (machine ι ω α log2Ring) tr s) (hrun : s.run.closing) :
    ∃ pre u a post, tr = pre ++ (u, a) :: post ∧ ReadsZero u a ∧
      ∀ e ∈ post, ∀ i crew, e.2 ≠ .run i crew := by
  refine Run.history (I := fun tr s => s.run.closing → ∃ pre u a post, tr = pre ++ (u, a) :: post ∧
    ReadsZero u a ∧ ∀ e ∈ post, ∀ i crew, e.2 ≠ .run i crew) (fun hrun => by cases hrun) ?_ h hrun
  intro tr u a v ih hs hrun
  obtain ⟨w, r, he, -, rfl⟩ := step_effect hs
  have hextend : u.run.closing → (∀ i crew, a ≠ .run i crew) → ∃ pre u' a' post,
      tr ++ [(u, a)] = pre ++ (u', a') :: post ∧ ReadsZero u' a' ∧
        ∀ e ∈ post, ∀ i crew, e.2 ≠ .run i crew := by
    intro hu ha
    obtain ⟨pre, u', a', post, rfl, hread, hpost⟩ := ih hu
    refine ⟨pre, u', a', post ++ [(u, a)], by simp, hread, fun e he => ?_⟩
    rcases List.mem_append.mp he with he | he
    · exact hpost e he
    · rw [List.mem_singleton.mp he]
      exact ha
  cases he with
  | zero hu hp => exact ⟨tr, u, .runner, [], rfl, ⟨rfl, _, _, hu, hp⟩, by simp⟩
  | run hu hi hc => cases hrun
  | launch hu => cases hrun
  | launched hu => cases hrun
  | ret hu => cases hrun
  | destroy hu hi => cases hrun
  | drained hu ht => cases hrun
  | shutdown hu => exact hextend (by rw [hu]; rfl) nofun
  | join hu hw => exact hextend (by rw [hu]; rfl) nofun
  | _ => exact hextend hrun nofun

/-- The scheduler runs every task once and shuts down cleanly, with fewer than `2 ^ 63` tasks
submitted. In turn: `pending_` counts the tasks on their way into the ring, in it, claimed or
with a worker (and those deleted); no task is started twice; where `run` reads `pending_` as zero
all tasks are completed; where `run` has joined its workers, what is left was submitted after
that read and is in the ring or being enqueued from outside, and without a submission from
outside since the read the ring is ready for the next round; the destructor deletes the rest. -/
theorem runs_every_task (h : Run (machine ι ω α kLog2Ring) tr s)
    (hsmall : (log submitted tr).length < 2 ^ 63) :
    (log submitted tr : Multiset α) = log completed tr + log deleted tr +
        s.outstanding (positions kLog2Ring tr) ∧
    s.pending = (s.outstanding (positions kLog2Ring tr)).card + (log deleted tr).length ∧
    (log started tr : Multiset α) ≤ log submitted tr ∧
    (ReadsZero s .runner → (log completed tr : Multiset α) = log submitted tr) ∧
    (∀ i crew, s.run = .join i crew [] → ∃ pre u a post, tr = pre ++ (u, a) :: post ∧
      ReadsZero u a ∧ (∀ e ∈ post, ∀ i crew, e.2 ≠ .run i crew) ∧
      (∀ t, s.ring.threads t = .idle ∨ (s.ring.threads t).isEnqueue ∧ ∃ i, t = .outside i) ∧
      s.outstanding (positions kLog2Ring tr) = Ring.inHand Ring.Pc.reserving s.ring +
        ((positions kLog2Ring tr).drop s.ring.tail : List α) ∧
      s.outstanding (positions kLog2Ring tr) ≤ log submitted post ∧
      (log submittedOutside post = [] → s.ring.head = s.ring.tail ∧
        ∀ q, s.ring.head ≤ q → q < s.ring.head + kRingSize kLog2Ring →
          s.ring.sequence (slot kLog2Ring q) = q)) ∧
    (s.run = .destroyed →
      (log submitted tr : Multiset α) = log completed tr + log deleted tr) := by
  have hlo : 1 ≤ kLog2Ring := by decide
  have hhi : kLog2Ring ≤ 63 := by decide
  have hc := control_of_run h
  refine ⟨submitted_eq hlo hhi h hsmall, pending_eq_card hlo hhi h hsmall,
    started_le hlo hhi h hsmall, fun hread => ?_, fun i crew hrun => ?_,
    submitted_of_destroyed hlo hhi h hsmall⟩
  · obtain ⟨-, i, crew, hrun, hzero⟩ := hread
    exact (completed_of_pending hlo hhi h hsmall hzero).1
  · obtain ⟨pre, u, a, post, rfl, hread, hpost⟩ := read_of_closing h (by rw [hrun]; rfl)
    have hidle := hc.outside_of_join hrun
    refine ⟨pre, u, a, post, rfl, hread, hpost, fun t => ?_, outstanding_of_join hc hrun,
      outstanding_le hlo hhi h hread hsmall, fun hquiet => ?_⟩
    · have hworkers := hc.crew
      rw [hrun] at hworkers
      cases t with
      | outside i => exact (hidle _).imp_right fun hpc => ⟨hpc, i, rfl⟩
      | worker w =>
        have hok := hc.workers w
        rw [hworkers.2 w (by simp)] at hok
        exact .inl hok
      | destructor => exact .inl (hc.destructor.resolve_right fun hd => by simp [hrun] at hd)
    · exact ring_ready hlo (ring_inv hlo hhi h hsmall) hidle
        (outstanding_eq_zero hlo hhi h hread hsmall hquiet)

/-- A task submitted before `run`, and one submitted after it that the destructor deletes. -/
def twoTasks : List (Action Unit Unit ℕ) :=
  let enqueue (task : ℕ) : List (Action Unit Unit ℕ) :=
    .submit () task :: List.replicate 4 (.access (.outside ()) false)
  List.flatten
    [enqueue 7, [.run () [()]], List.replicate 2 .runner,
      List.replicate 5 (.access (.worker ()) false), [.worker (), .finish (), .worker ()],
      List.replicate 2 .runner, List.replicate 2 (.access (.worker ()) false),
      List.replicate 2 (.worker ()), List.replicate 2 .runner, enqueue 8, [.destroy, .drain],
      List.replicate 5 (.access .destructor false), List.replicate 2 .drain,
      List.replicate 2 (.access .destructor false), [.drain]]

theorem runs_every_task_two :
    ∃ s, exec (machine Unit Unit ℕ kLog2Ring) (machine Unit Unit ℕ kLog2Ring).init twoTasks =
        some s ∧ s.run = .destroyed ∧
      (log submitted (record (machine Unit Unit ℕ kLog2Ring)
          (machine Unit Unit ℕ kLog2Ring).init twoTasks) : Multiset ℕ) =
        log completed (record (machine Unit Unit ℕ kLog2Ring)
          (machine Unit Unit ℕ kLog2Ring).init twoTasks) +
        log deleted (record (machine Unit Unit ℕ kLog2Ring)
          (machine Unit Unit ℕ kLog2Ring).init twoTasks) := by
  have hen : (exec (machine Unit Unit ℕ kLog2Ring) (machine Unit Unit ℕ kLog2Ring).init
      twoTasks).any fun s => match s.run with | .destroyed => true | _ => false := by decide
  obtain ⟨s, hs, hend⟩ := (Option.any_eq_true _ _).mp hen
  have hrun : s.run = .destroyed := by
    cases hr : s.run <;> simp [hr] at hend
    rfl
  have hsmall : (log submitted (record (machine Unit Unit ℕ kLog2Ring)
      (machine Unit Unit ℕ kLog2Ring).init twoTasks)).length < 2 ^ 63 := by decide
  exact ⟨s, hs, hrun, (runs_every_task (exec_steps hs) hsmall).2.2.2.2.2 hrun⟩

/-- The threads from `n` on have not submitted yet, the others have counted their task in. -/
structure Counted {m : ℕ} (n : ℕ) (tr : List (State (Fin m) Unit Unit × Action (Fin m) Unit Unit))
    (s : State (Fin m) Unit Unit) : Prop where
  run : s.run = .idle
  pending : s.pending = int64 n
  idle : ∀ i : Fin m, n ≤ i → s.ring.threads (.outside i) = .idle
  submitted : (log submitted tr).length = n
  completed : log completed tr = []

theorem exists_counted {m : ℕ} : ∀ n ≤ m, ∃ tr s,
    Run (machine (Fin m) Unit Unit kLog2Ring) tr s ∧ Counted n tr s := by
  intro n
  induction n with
  | zero => exact fun _ => ⟨[], _, .nil, rfl, rfl, fun _ _ => rfl, rfl, rfl⟩
  | succ n ih =>
    intro hn
    obtain ⟨tr, s, hrun, h⟩ := ih (by omega)
    have hs : (machine (Fin m) Unit Unit kLog2Ring).step s (.submit ⟨n, hn⟩ ()) = some
        { s with
          pending := int64 (s.pending + 1)
          ring := s.ring.goto (.outside ⟨n, hn⟩) (.reserve ()) } := by
      simp [machine, step, submit, State.onRing, Ring.step, h.run, h.idle, RunPc.excludes]
    refine ⟨_, _, .snoc hrun hs, h.run, ?_, fun i hi => ?_, ?_, ?_⟩
    · rw [show (_ : ℤ) = int64 (s.pending + 1) from rfl, h.pending, int64, int64, Int.bmod_add_bmod]
      push_cast
      rfl
    · have hne : Thread.outside (ω := Unit) i ≠ .outside ⟨n, hn⟩ := by
        rintro he
        cases he
        exact absurd hi (by simp)
      exact (Function.update_of_ne hne _ _).trans (h.idle i (by omega))
    · rw [log_snoc, List.length_append, h.submitted]
      rfl
    · rw [log_snoc, h.completed]
      rfl

/-- With `2 ^ 63` tasks outstanding, `pending_` is not their number. -/
theorem pending_wraps : ¬ ∀ tr s, Run (machine (Fin (2 ^ 63)) Unit Unit kLog2Ring) tr s →
    s.pending = (log submitted tr).length - (log completed tr).length := by
  intro hall
  obtain ⟨tr, s, hrun, h⟩ := exists_counted (m := 2 ^ 63) _ le_rfl
  have hpend := hall tr s hrun
  rw [h.pending, h.submitted, h.completed] at hpend
  exact absurd hpend (by decide)

end TaskScheduler.LockFree
