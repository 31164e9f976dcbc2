import TaskScheduler.RingInvariant

/-!
# Every task exactly once

What the accesses of a run have claimed, taken and delivered, compared with the positions
of the ring: the ring delivers each task once, to the `dequeue` that claimed its position.
-/
namespace TaskScheduler.LockFree.Ring
open Transition

variable {θ α : Type*} [DecidableEq θ] {log2Ring : ℕ} {s s' : State θ α} {a : Action θ α}

/-- The position whose payload the thread is about to take. -/
def Pc.takes {α : Type*} : Pc α → Option ℕ
  | .exchange pos => some pos
  | _ => none

/-- The step has no part in the consumption of a position. -/
structure Quiet (s : State θ α) (a : Action θ α) (s' : State θ α) : Prop where
  claimed : claimed s a = none
  taken : taken s a = none
  delivered : delivered s a = none
  tail : s'.tail = s.tail
  takes : ∀ t, (s'.threads t).takes = (s.threads t).takes
  consumes : ∀ t, (s'.threads t).consumes = (s.threads t).consumes

theorem role_update {β : Type*} {r : Pc α → β} {threads : θ → Pc α} {t : θ} {pc : Pc α}
    (h : r pc = r (threads t)) (t' : θ) : r (Function.update threads t pc t') = r (threads t') := by
  rcases eq_or_ne t' t with rfl | hne
  · rw [Function.update_self, h]
  · rw [Function.update_of_ne hne]

/-- The steps that consume: the claim of a position, the exchange and the release of its slot. -/
theorem step_cases (hs : step log2Ring s a = some s') :
    Quiet s a s' ∨
    (∃ t, s.threads t = .claim s.tail ∧ claimed s a = some s.tail ∧ taken s a = none ∧
      delivered s a = none ∧ s'.tail = uint64 (s.tail + 1) ∧
      s'.threads = Function.update s.threads t (.exchange s.tail)) ∨
    (∃ t pos, s.threads t = .exchange pos ∧ claimed s a = none ∧ taken s a = some pos ∧
      delivered s a = none ∧ s'.tail = s.tail ∧ s'.threads =
        Function.update s.threads t (.release pos (s.payload (slot log2Ring pos)))) ∨
    ∃ t pos raw, s.threads t = .release pos raw ∧ claimed s a = none ∧ taken s a = none ∧
      delivered s a = some (pos, raw) ∧ s'.tail = s.tail ∧
      s'.threads = Function.update s.threads t (.returned raw) := by
  cases a with
  | enqueue t task =>
    cases hpc : s.threads t <;> simp only [step, hpc, reduceCtorEq, Option.some.injEq] at hs
    subst hs
    exact .inl ⟨rfl, rfl, rfl, rfl, role_update (hpc ▸ rfl), role_update (hpc ▸ rfl)⟩
  | dequeue t =>
    cases hpc : s.threads t <;> simp only [step, hpc, reduceCtorEq, Option.some.injEq] at hs
    subst hs
    exact .inl ⟨rfl, rfl, rfl, rfl, role_update (hpc ▸ rfl), role_update (hpc ▸ rfl)⟩
  | finish t =>
    cases hpc : s.threads t <;> simp only [step, hpc, reduceCtorEq, Option.some.injEq] at hs
    subst hs
    exact .inl ⟨rfl, rfl, rfl, rfl, role_update (hpc ▸ rfl), role_update (hpc ▸ rfl)⟩
  | access t spurious =>
    simp only [step] at hs
    cases hpc : s.threads t with
    | claim pos =>
      simp only [access, hpc] at hs
      split_ifs at hs with hwin <;> cases hs
      · obtain ⟨rfl, hb⟩ := hwin
        refine .inr (.inl ⟨t, hpc, ?_, ?_, ?_, rfl, rfl⟩) <;> simp [claimed, taken, delivered, hpc, hb]
      · refine .inl ⟨?_, ?_, ?_, rfl, role_update (hpc ▸ rfl), role_update (hpc ▸ rfl)⟩
        · simp only [claimed, hpc, if_neg hwin]
        · simp only [taken, hpc]
        · simp only [delivered, hpc]
    | exchange pos =>
      simp only [access, hpc, Option.some.injEq] at hs
      subst hs
      refine .inr (.inr (.inl ⟨t, pos, hpc, ?_, ?_, ?_, rfl, rfl⟩)) <;>
        simp only [claimed, taken, delivered, hpc]
    | release pos raw =>
      simp only [access, hpc, Option.some.injEq] at hs
      subst hs
      refine .inr (.inr (.inr ⟨t, pos, raw, hpc, ?_, ?_, ?_, rfl, rfl⟩)) <;>
        simp only [claimed, taken, delivered, hpc]
    | await pos task =>
      simp only [access, hpc] at hs
      split_ifs at hs <;> cases hs
      · refine .inl ⟨?_, ?_, ?_, rfl, role_update (hpc ▸ rfl), role_update (hpc ▸ rfl)⟩ <;>
          simp only [claimed, taken, delivered, hpc]
      · refine .inl ⟨?_, ?_, ?_, rfl, fun _ => rfl, fun _ => rfl⟩ <;>
          simp only [claimed, taken, delivered, hpc]
    | loadSequence pos =>
      simp only [access, hpc] at hs
      split_ifs at hs <;> cases hs <;>
        refine .inl ⟨?_, ?_, ?_, rfl, role_update (hpc ▸ rfl), role_update (hpc ▸ rfl)⟩ <;>
        simp only [claimed, taken, delivered, hpc]
    | idle => simp [access, hpc] at hs
    | returned r => simp [access, hpc] at hs
    | _ =>
      simp only [access, hpc, Option.some.injEq] at hs
      subst hs
      refine .inl ⟨?_, ?_, ?_, rfl, role_update (hpc ▸ rfl), role_update (hpc ▸ rfl)⟩ <;>
        simp only [claimed, taken, delivered, hpc]

/-- `tail_` moves by the claims. -/
theorem tail_step (hlen : s.tail < 2 ^ 63) (hs : step log2Ring s a = some s') :
    s'.tail = s.tail + (claimed s a).toList.length := by
  rcases step_cases hs with hq | ⟨t, -, hc, -, -, ht, -⟩ | ⟨t, pos, -, hc, -, -, ht, -⟩ |
    ⟨t, pos, raw, -, hc, -, -, ht, -⟩
  · rw [hq.tail, hq.claimed]
    rfl
  · rw [ht, hc, uint64_of_lt (by omega)]
    rfl
  · rw [ht, hc]
    rfl
  · rw [ht, hc]
    rfl

/-- The record of a run against the state it has reached. -/
structure History (tr : List (State θ α × Action θ α)) (s : State θ α) : Prop where
  claims : log claimed tr = List.range s.tail
  takes : ∀ p, p ∈ log taken tr ↔ p < s.tail ∧ ∀ t, (s.threads t).takes ≠ some p
  deliveries : ∀ p, p ∈ (log delivered tr).map Prod.fst ↔
    p < s.tail ∧ ∀ t, (s.threads t).consumes ≠ some p
  once : ((log delivered tr).map Prod.fst).Nodup
  tasks : ∀ e ∈ log delivered tr, e.2 = (log reserved tr)[e.1]?

section Update
variable {r : Pc α → Option ℕ} {threads : θ → Pc α} {t : θ} {pc : Pc α} {pos : ℕ}

/-- A thread takes on the role for a position at the end of the range. -/
theorem forall_ne_acquire (hold : r (threads t) = none) (hpc : r pc = some pos)
    (hlt : ∀ t' p, r (threads t') = some p → p < pos) (p : ℕ) :
    (p < pos + 1 ∧ ∀ t', r (Function.update threads t pc t') ≠ some p) ↔
      p < pos ∧ ∀ t', r (threads t') ≠ some p := by
  constructor
  · rintro ⟨hp, hnone⟩
    have hne : p ≠ pos := by
      rintro rfl
      exact hnone t (by rw [Function.update_self, hpc])
    refine ⟨by omega, fun t' ht' => ?_⟩
    rcases eq_or_ne t' t with rfl | hne'
    · rw [hold] at ht'
      cases ht'
    · exact hnone t' (by rw [Function.update_of_ne hne', ht'])
  · rintro ⟨hp, hnone⟩
    refine ⟨by omega, fun t' ht' => ?_⟩
    rcases eq_or_ne t' t with rfl | hne'
    · rw [Function.update_self, hpc] at ht'
      have heq := Option.some.inj ht'
      omega
    · rw [Function.update_of_ne hne'] at ht'
      exact hnone t' ht'

/-- The thread that has the role for a position gives it up. -/
theorem forall_ne_yield (hold : r (threads t) = some pos) (hpc : r pc = none)
    (hunique : ∀ t', r (threads t') = some pos → t' = t) (p : ℕ) :
    (∀ t', r (Function.update threads t pc t') ≠ some p) ↔
      (∀ t', r (threads t') ≠ some p) ∨ p = pos := by
  constructor
  · intro hnone
    by_cases hp : p = pos
    · exact .inr hp
    · refine .inl fun t' ht' => ?_
      rcases eq_or_ne t' t with rfl | hne'
      · rw [hold] at ht'
        exact hp (Option.some.inj ht').symm
      · exact hnone t' (by rw [Function.update_of_ne hne', ht'])
  · rintro (hnone | rfl) t' ht' <;> rcases eq_or_ne t' t with rfl | hne'
    · rw [Function.update_self, hpc] at ht'
      cases ht'
    · rw [Function.update_of_ne hne'] at ht'
      exact hnone t' ht'
    · rw [Function.update_self, hpc] at ht'
      cases ht'
    · rw [Function.update_of_ne hne'] at ht'
      exact hne' (hunique t' ht')

end Update

theorem takes_consumes {pc : Pc α} {p : ℕ} (h : pc.takes = some p) : pc.consumes = some p := by
  cases pc <;> simp only [Pc.takes, reduceCtorEq] at h
  exact h

/-- The record of the positions that have passed through a role, extended by one of them. -/
theorem mem_snoc_iff {l : List ℕ} {n pos p : ℕ} {P Q : Prop} (hpos : pos < n)
    (hl : p ∈ l ↔ p < n ∧ P) (hQ : Q ↔ P ∨ p = pos) : p ∈ l ++ [pos] ↔ p < n ∧ Q := by
  rw [List.mem_append, List.mem_singleton, hl, hQ]
  constructor
  · rintro (⟨hp, h⟩ | rfl)
    · exact ⟨hp, .inl h⟩
    · exact ⟨hpos, .inr rfl⟩
  · rintro ⟨hp, h | rfl⟩
    · exact .inl ⟨hp, h⟩
    · exact .inr rfl

variable {tr : List (State θ α × Action θ α)}

theorem History.step (h : History tr s) (hinv : Inv (kRingSize log2Ring) (log reserved tr) s)
    (hlen : s.tail < 2 ^ 63) (hs : step log2Ring s a = some s') :
    History (tr ++ [(s, a)]) s' := by
  have hearlier : ∀ p, p < s.tail → (log reserved (tr ++ [(s, a)]))[p]? = (log reserved tr)[p]? := by
    intro p hp
    have hlen := hinv.tail
    rw [hinv.head] at hlen
    rw [log_snoc, List.getElem?_append_left (hp.trans_le hlen)]
  have htasks : ∀ e ∈ log delivered tr, e.2 = (log reserved (tr ++ [(s, a)]))[e.1]? := by
    intro e he
    have hp := ((h.deliveries e.1).mp (List.mem_map_of_mem he)).1
    rw [hearlier e.1 hp]
    exact h.tasks e he
  rcases step_cases hs with hq | ⟨t, hpc, hc, ht, hd, htail, hth⟩ |
    ⟨t, pos, hpc, hc, ht, hd, htail, hth⟩ | ⟨t, pos, raw, hpc, hc, ht, hd, htail, hth⟩
  · refine ⟨?_, ?_, ?_, ?_, ?_⟩ <;>
      simp only [log_snoc claimed, log_snoc taken, log_snoc delivered, hq.claimed, hq.taken,
        hq.delivered, Option.toList_none, List.append_nil, hq.tail, hq.takes, hq.consumes]
    · exact h.claims
    · exact h.takes
    · exact h.deliveries
    · exact h.once
    · exact htasks
  · rw [uint64_of_lt (by omega)] at htail
    refine ⟨?_, ?_, ?_, ?_, ?_⟩ <;>
      simp only [log_snoc claimed, log_snoc taken, log_snoc delivered, hc, ht, hd,
        Option.toList_none, Option.toList_some, List.append_nil, htail, hth]
    · rw [h.claims, List.range_succ]
    · intro p
      rw [h.takes]
      exact (forall_ne_acquire (r := Pc.takes) (hpc ▸ rfl) rfl
        (fun t' q hq => ((hinv.pcs t').consumes (takes_consumes hq)).1) p).symm
    · intro p
      rw [h.deliveries]
      exact (forall_ne_acquire (r := Pc.consumes) (hpc ▸ rfl) rfl
        (fun t' q hq => ((hinv.pcs t').consumes hq).1) p).symm
    · exact h.once
    · exact htasks
  · have hpos : pos < s.tail := ((hinv.pcs t).consumes (hpc ▸ rfl)).1
    have hrole : ∀ t', (s'.threads t').consumes = (s.threads t').consumes := by
      rw [hth]
      exact role_update (hpc ▸ rfl)
    refine ⟨?_, fun p => ?_, ?_, ?_, ?_⟩ <;>
      simp only [log_snoc claimed, log_snoc taken, log_snoc delivered, hc, ht, hd,
        Option.toList_none, Option.toList_some, List.append_nil, htail, hrole]
    · exact h.claims
    · rw [hth]
      have htakes : (s.threads t).takes = some pos := by rw [hpc, Pc.takes]
      refine mem_snoc_iff hpos (h.takes p) (forall_ne_yield htakes rfl (fun t' ht' => ?_) p)
      exact hinv.consumer t' t pos (takes_consumes ht') (takes_consumes htakes)
    · exact h.deliveries
    · exact h.once
    · exact htasks
  · obtain ⟨hpos, -, -, hraw⟩ : PcOk _ _ s (.release pos raw) := hpc ▸ hinv.pcs t
    have hrole : ∀ t', (s'.threads t').takes = (s.threads t').takes := by
      rw [hth]
      exact role_update (hpc ▸ rfl)
    refine ⟨?_, ?_, fun p => ?_, ?_, fun e he => ?_⟩ <;>
      simp only [log_snoc claimed, log_snoc taken, log_snoc delivered, hc, ht, hd, List.map_append,
        List.map_cons, List.map_nil, Option.toList_none, Option.toList_some, List.append_nil, htail,
        hrole] at *
    · exact h.claims
    · exact h.takes
    · rw [hth]
      have hcons : (s.threads t).consumes = some pos := by rw [hpc, Pc.consumes]
      refine mem_snoc_iff hpos (h.deliveries p) (forall_ne_yield hcons rfl (fun t' ht' => ?_) p)
      exact hinv.consumer t' t pos ht' hcons
    · refine List.nodup_append'.mpr ⟨h.once, List.nodup_singleton pos, ?_⟩
      rw [List.disjoint_singleton]
      intro hmem
      exact ((h.deliveries pos).mp hmem).2 t (hpc ▸ rfl)
    · rcases List.mem_append.mp he with he | he
      · exact htasks e he
      · rw [List.mem_singleton.mp he, hearlier pos hpos]
        exact hraw

theorem history_of_run (hlo : 1 ≤ log2Ring) (hhi : log2Ring ≤ 63)
    (h : Run (machine θ α log2Ring) tr s) (hsmall : (log reserved tr).length < 2 ^ 63) :
    History tr s := by
  refine (Run.history (I := fun tr s => (log reserved tr).length < 2 ^ 63 →
    Inv (kRingSize log2Ring) (log reserved tr) s ∧ History tr s) (fun _ => ⟨inv_init, ?_⟩) ?_ h
    hsmall).2
  · exact ⟨rfl, by simp [machine], by simp [machine], by simp, by simp⟩
  · intro tr u a v ih hs hsmall
    have hlen : (log reserved tr).length < 2 ^ 63 := by
      rw [log_snoc, List.length_append] at hsmall
      omega
    obtain ⟨hinv, hist⟩ := ih hlen
    rw [log_snoc] at hsmall ⊢
    have htail := hinv.tail
    rw [hinv.head] at htail
    exact ⟨inv_step hlo hhi hinv hs hsmall, hist.step hinv (by omega) hs⟩

/-- The ring delivers every task exactly once and in the order of the reservations, for every
power-of-two size from two on and fewer than `2^63` reservations. In turn: `tail_` stays
behind `head_`; the positions are claimed in order, each once; a payload is written only
when the task a ring before has been taken out of the slot; the `dequeue` that claimed a position
returns the task that reserved it; none does so twice; a claimed position is delivered or
about to be; an unclaimed one is in its slot or with its producer. -/
theorem ring_delivers (hlo : 1 ≤ log2Ring) (hhi : log2Ring ≤ 63)
    (h : Run (machine θ α log2Ring) tr s) (hsmall : (log reserved tr).length < 2 ^ 63) :
    s.tail ≤ s.head ∧ s.head = (log reserved tr).length ∧
    log claimed tr = List.range s.tail ∧
    (∀ t pos task, s.threads t = .store pos task → (log reserved tr)[pos]? = some task ∧
      s.payload (slot log2Ring pos) = none ∧
      ∀ p, p + kRingSize log2Ring = pos → p ∈ log taken tr) ∧
    (∀ e ∈ log delivered tr, ∃ task, e.2 = some task ∧ (log reserved tr)[e.1]? = some task) ∧
    ((log delivered tr).map Prod.fst).Nodup ∧
    (∀ p < s.tail, p ∈ (log delivered tr).map Prod.fst ∨ ∃ t,
      s.threads t = .exchange p ∧ s.payload (slot log2Ring p) = (log reserved tr)[p]? ∨
        s.threads t = .release p (log reserved tr)[p]?) ∧
    (∀ p task, s.tail ≤ p → (log reserved tr)[p]? = some task →
      s.payload (slot log2Ring p) = some task ∨
        ∃ t, s.threads t = .await p task ∨ s.threads t = .store p task) := by
  have hinv := inv_of_run hlo hhi h hsmall
  have hist := history_of_run hlo hhi h hsmall
  have hN := two_le_kRingSize hlo
  have htail := hinv.tail
  simp only [slot_eq]
  refine ⟨htail, hinv.head, hist.claims, fun t pos task ht => ?_, fun e he => ?_, hist.once,
    fun p hp => ?_, fun p task hp hget => hinv.waiting hN hp hget⟩
  · obtain ⟨hget, hseq⟩ : PcOk _ _ s (.store pos task) := ht ▸ hinv.pcs t
    refine ⟨hget, hinv.empty_of_store ht, fun p hp => ?_⟩
    have hfree := hinv.free hN hseq
    refine (hist.takes p).mpr ⟨by omega, fun t' ht' => ?_⟩
    have hother := ((hinv.pcs t').consumes (takes_consumes ht')).2
    rw [← hp, Nat.add_mod_right] at hseq
    omega
  · have hp := ((hist.deliveries e.1).mp (List.mem_map_of_mem he)).1
    have hget := List.getElem?_eq_getElem (l := log reserved tr) (i := e.1)
      (by rw [← hinv.head]; omega)
    exact ⟨_, (hist.tasks e he).trans hget, hget⟩
  · by_cases hmem : p ∈ (log delivered tr).map Prod.fst
    · exact .inl hmem
    · rw [hist.deliveries p] at hmem
      push Not at hmem
      obtain ⟨t, ht⟩ := hmem hp
      exact .inr ⟨t, hinv.consuming ht⟩

def enqueueAll (t : Bool) (task : ℕ) : List (Action Bool ℕ) :=
  .enqueue t task :: List.replicate 4 (.access t false)

/-- Two threads on a ring of two slots: the third task is enqueued while the other thread takes
the first, whose claim fails once without cause. -/
def deliverySchedule : List (Action Bool ℕ) := List.flatten
  [enqueueAll true 5, enqueueAll true 6, [.enqueue true 7, .access true false, .dequeue false],
    List.replicate 2 (.access false false), [.access false true],
    List.replicate 4 (.access false false), List.replicate 2 (.access true false)]

/-- The run of that schedule. -/
def deliveryRun : List (State Bool ℕ × Action Bool ℕ) :=
  record (machine Bool ℕ 1) (machine Bool ℕ 1).init deliverySchedule

theorem ring_delivers_three : ∃ s, Run (machine Bool ℕ 1) deliveryRun s ∧
    log reserved deliveryRun = [5, 6, 7] ∧ log delivered deliveryRun = [(0, some 5)] ∧
    log claimed deliveryRun = List.range s.tail ∧ s.tail = 1 ∧ s.head = 3 ∧
    (∀ e ∈ log delivered deliveryRun, ∃ task, e.2 = some task ∧
      (log reserved deliveryRun)[e.1]? = some task) ∧
    ∀ p task, s.tail ≤ p → (log reserved deliveryRun)[p]? = some task →
      s.payload (slot 1 p) = some task ∨
        ∃ t, s.threads t = .await p task ∨ s.threads t = .store p task := by
  have hen : (exec (machine Bool ℕ 1) (machine Bool ℕ 1).init deliverySchedule).any
      fun s => decide (s.tail = 1 ∧ s.head = 3) := by decide
  obtain ⟨s, hs, hend⟩ := (Option.any_eq_true _ _).mp hen
  obtain ⟨htail, hhead⟩ := of_decide_eq_true hend
  have hrun : Run (machine Bool ℕ 1) deliveryRun s := exec_steps hs
  have hall := ring_delivers le_rfl (by decide) hrun (by decide)
  exact ⟨s, hrun, by decide, by decide, hall.2.2.1, htail, hhead, hall.2.2.2.2.1,
    hall.2.2.2.2.2.2.2⟩

end TaskScheduler.LockFree.Ring
