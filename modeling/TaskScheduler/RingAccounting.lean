import TaskScheduler.Counting
import TaskScheduler.RingInvariant

/-!
# Where the tasks of the ring are

The tasks enqueued, as a multiset, are those that callers of `dequeue` have received,
those at the positions between the cursors, and those in the hands of single threads.
-/
namespace TaskScheduler.LockFree.Ring
open Transition

variable {θ α : Type*} {log2Ring : ℕ} {L : List α} {s s' : State θ α}

/-- The task of a thread that is about to reserve a position for it. -/
def Pc.reserving {α : Type*} : Pc α → Multiset α
  | .reserve task => {task}
  | _ => 0

/-- The task of a thread that has claimed its position. -/
def Pc.carrying {α : Type*} (L : List α) : Pc α → Multiset α
  | .exchange pos => L[pos]?.toList
  | .release _ raw => raw.toList
  | .returned raw => raw.toList
  | _ => 0

theorem carrying_append {pc : Pc α} (h : PcOk (kRingSize log2Ring) L s pc)
    (hlen : s.tail ≤ L.length) (L' : List α) : pc.carrying (L ++ L') = pc.carrying L := by
  cases pc with
  | exchange pos =>
    have hpos : pos < s.tail := h.1
    simp only [Pc.carrying]
    rw [List.getElem?_append_left (by omega)]
  | _ => rfl

variable [DecidableEq θ]

/-- What a thread has in hand for a reservation changes by what it brings and reserves. -/
theorem step_reserving {a : Action θ α} (hs : step log2Ring s a = some s') :
    ∃ t pc, s'.threads = Function.update s.threads t pc ∧
      pc.reserving + (reserved s a).toList =
        (s.threads t).reserving + ((enqueued s a).toList : Multiset α) := by
  cases a with
  | enqueue t task =>
    cases hpc : s.threads t <;> simp only [step, hpc, reduceCtorEq, Option.some.injEq] at hs
    subst hs
    exact ⟨t, _, rfl, by simp [hpc, reserved, enqueued, Pc.reserving]⟩
  | dequeue t =>
    cases hpc : s.threads t <;> simp only [step, hpc, reduceCtorEq, Option.some.injEq] at hs
    subst hs
    exact ⟨t, _, rfl, by simp [hpc, reserved, enqueued, Pc.reserving]⟩
  | finish t =>
    cases hpc : s.threads t <;> simp only [step, hpc, reduceCtorEq, Option.some.injEq] at hs
    subst hs
    exact ⟨t, _, rfl, by simp [hpc, reserved, enqueued, Pc.reserving]⟩
  | access t spurious =>
    simp only [step] at hs
    cases hpc : s.threads t with
    | await pos task =>
      simp only [access, hpc] at hs
      split_ifs at hs <;> cases hs
      · exact ⟨t, _, rfl, by simp [hpc, reserved, enqueued, Pc.reserving]⟩
      · exact ⟨t, _, (Function.update_eq_self t s.threads).symm, by simp [hpc, reserved, enqueued]⟩
    | loadSequence pos =>
      simp only [access, hpc] at hs
      split_ifs at hs <;> cases hs <;>
        exact ⟨t, _, rfl, by simp [hpc, reserved, enqueued, Pc.reserving]⟩
    | claim pos =>
      simp only [access, hpc] at hs
      split_ifs at hs <;> cases hs <;>
        exact ⟨t, _, rfl, by simp [hpc, reserved, enqueued, Pc.reserving]⟩
    | idle => simp [access, hpc] at hs
    | returned r => simp [access, hpc] at hs
    | _ =>
      simp only [access, hpc, Option.some.injEq] at hs
      subst hs
      exact ⟨t, _, rfl, by simp [hpc, reserved, enqueued, Pc.reserving]⟩

/-- What a thread carries changes by what it claims and hands to its caller. -/
theorem step_carrying {a : Action θ α} (h : Inv (kRingSize log2Ring) L s) (hN : 1 ≤ log2Ring)
    (hlen : s.tail < 2 ^ 63) (hs : step log2Ring s a = some s') :
    ∃ t pc, s'.threads = Function.update s.threads t pc ∧
      pc.carrying L + ((fetched s a).toList + (L.drop s'.tail : List α) : Multiset α) =
        (s.threads t).carrying L + (L.drop s.tail : List α) := by
  cases a with
  | enqueue t task =>
    cases hpc : s.threads t <;> simp only [step, hpc, reduceCtorEq, Option.some.injEq] at hs
    subst hs
    exact ⟨t, _, rfl, by simp [hpc, fetched, Pc.carrying, State.goto]⟩
  | dequeue t =>
    cases hpc : s.threads t <;> simp only [step, hpc, reduceCtorEq, Option.some.injEq] at hs
    subst hs
    exact ⟨t, _, rfl, by simp [hpc, fetched, Pc.carrying, State.goto]⟩
  | finish t =>
    cases hpc : s.threads t <;> simp only [step, hpc, reduceCtorEq, Option.some.injEq] at hs
    subst hs
    exact ⟨t, _, rfl, by simp [hpc, fetched, Pc.carrying, State.goto]⟩
  | access t spurious =>
    have hok := h.pcs t
    simp only [step] at hs
    cases hpc : s.threads t with
    | await pos task =>
      simp only [access, hpc] at hs
      split_ifs at hs <;> cases hs
      · exact ⟨t, _, rfl, by simp [hpc, fetched, Pc.carrying, State.goto]⟩
      · exact ⟨t, _, (Function.update_eq_self t s.threads).symm, by simp [hpc, fetched]⟩
    | loadSequence pos =>
      simp only [access, hpc] at hs
      split_ifs at hs <;> cases hs <;>
        exact ⟨t, _, rfl, by simp [hpc, fetched, Pc.carrying, State.goto]⟩
    | claim pos =>
      simp only [access, hpc] at hs
      split_ifs at hs with hwin <;> cases hs
      · obtain ⟨rfl, -⟩ := hwin
        refine ⟨t, _, rfl, ?_⟩
        rw [hpc] at hok
        have hlt := (h.filled (two_le_kRingSize hN)
          (h.claimable (two_le_kRingSize hN) hok.2)).1
        rw [h.head] at hlt
        rw [uint64_of_lt (by omega), List.drop_eq_getElem_cons hlt]
        simp [hpc, fetched, Pc.carrying, State.goto, hlt]
      · exact ⟨t, _, rfl, by simp [hpc, fetched, Pc.carrying, State.goto]⟩
    | exchange pos =>
      rw [hpc] at hok
      simp only [access, hpc, slot_eq, hok.2.2, Option.some.injEq] at hs
      subst hs
      exact ⟨t, _, rfl, by simp [hpc, fetched, Pc.carrying, State.goto, State.setPayload]⟩
    | release pos raw =>
      simp only [access, hpc, Option.some.injEq] at hs
      subst hs
      exact ⟨t, _, rfl, by simp [hpc, fetched, Pc.carrying, State.goto, State.setSequence]⟩
    | idle => simp [access, hpc] at hs
    | returned r => simp [access, hpc] at hs
    | _ =>
      simp only [access, hpc, Option.some.injEq] at hs
      subst hs
      exact ⟨t, _, rfl, by simp [hpc, fetched, Pc.carrying, State.goto, State.setPayload,
        State.setSequence]⟩

variable [Fintype θ] {tr : List (State θ α × Action θ α)}

/-- The sum of what the threads have in hand. -/
def inHand (w : Pc α → Multiset α) (s : State θ α) : Multiset α := ∑ t, w (s.threads t)

/-- What the moving thread takes in and gives out is what all threads take in and give out. -/
theorem inHand_move (w : Pc α → Multiset α) {t : θ} {pc : Pc α} {out inn : Multiset α}
    (h : s'.threads = Function.update s.threads t pc)
    (hmove : w pc + out = w (s.threads t) + inn) : inHand w s' + out = inHand w s + inn := by
  rw [inHand, h]
  exact Counting.sum_move (Finset.mem_univ t) hmove

/-- The tasks enqueued are those that have a position and those about to get one. -/
theorem enqueued_eq (h : Run (machine θ α log2Ring) tr s) :
    (log enqueued tr : Multiset α) = log reserved tr + inHand Pc.reserving s := by
  refine Run.history (I := fun tr s => (log enqueued tr : Multiset α) =
    (log reserved tr : Multiset α) + inHand Pc.reserving s) (by simp [inHand, machine, Pc.reserving]) ?_ h
  intro tr u a v ih hs
  obtain ⟨t, pc, hth, hmove⟩ := step_reserving hs
  have hsum := inHand_move Pc.reserving hth hmove
  rw [log_snoc, log_snoc, ← Multiset.coe_add, ← Multiset.coe_add, ih, add_assoc, ← hsum]
  abel

theorem length_le (h : Run (machine θ α log2Ring) tr s) :
    (log reserved tr).length ≤ (log enqueued tr).length := by
  have hcard := congrArg Multiset.card (enqueued_eq h)
  simp only [Multiset.coe_card, Multiset.card_add] at hcard
  omega

/-- The tasks with a position are those delivered to a caller, those between the cursors, and
those that a thread carries. -/
theorem reserved_eq (hlo : 1 ≤ log2Ring) (hhi : log2Ring ≤ 63)
    (h : Run (machine θ α log2Ring) tr s) (hsmall : (log reserved tr).length < 2 ^ 63) :
    (log reserved tr : Multiset α) = log fetched tr + ((log reserved tr).drop s.tail : List α) +
      inHand (Pc.carrying (log reserved tr)) s := by
  refine Run.history (I := fun tr s => (log reserved tr).length < 2 ^ 63 →
    Inv (kRingSize log2Ring) (log reserved tr) s ∧ (log reserved tr : Multiset α) =
      log fetched tr + ((log reserved tr).drop s.tail : List α) +
        inHand (Pc.carrying (log reserved tr)) s) (fun _ => ⟨inv_init, ?_⟩) ?_ h hsmall |>.2
  · simp [inHand, machine, Pc.carrying]
  intro tr u a v ih hs hsmall
  have hlen : (log reserved tr).length < 2 ^ 63 := by
    rw [log_snoc, List.length_append] at hsmall
    omega
  obtain ⟨hinv, heq⟩ := ih hlen
  have htail := hinv.tail
  rw [hinv.head] at htail
  rw [log_snoc] at hsmall ⊢
  refine ⟨inv_step hlo hhi hinv hs hsmall, ?_⟩
  cases hres : reserved u a with
  | none =>
    obtain ⟨t, pc, hth, hmove⟩ := step_carrying hinv hlo (by omega) hs
    have hsum := inHand_move (Pc.carrying (log reserved tr)) hth hmove
    rw [Option.toList_none, List.append_nil, heq, log_snoc, ← Multiset.coe_add]
    calc (log fetched tr : Multiset α) + ((log reserved tr).drop u.tail : List α) +
          inHand (Pc.carrying (log reserved tr)) u
        = log fetched tr + (inHand (Pc.carrying (log reserved tr)) u +
            ((log reserved tr).drop u.tail : List α)) := by abel
      _ = log fetched tr + (fetched u a).toList + ((log reserved tr).drop v.tail : List α) +
            inHand (Pc.carrying (log reserved tr)) v := by
          rw [← hsum]
          abel
  | some task =>
    obtain ⟨t, spurious, rfl, hpc⟩ := reserved_eq_some hres
    have hfetched : fetched u (.access t spurious) = none := rfl
    simp only [machine, step, access, hpc, Option.some.injEq] at hs
    subst hs
    have hhand : inHand (Pc.carrying (log reserved tr ++ [task]))
        ({ u with head := uint64 (u.head + 1) }.goto t (.await u.head task)) =
          inHand (Pc.carrying (log reserved tr)) u := by
      refine Finset.sum_congr rfl fun t' _ => ?_
      rcases eq_or_ne t' t with rfl | hne
      · simp [State.goto, Pc.carrying, hpc]
      · simp only [State.goto, Function.update_of_ne hne]
        exact carrying_append (hinv.pcs t') htail [task]
    rw [Option.toList_some, hhand, log_snoc, hfetched, Option.toList_none, List.append_nil,
      goto_tail, List.drop_append_of_le_length htail, ← Multiset.coe_add, ← Multiset.coe_add, heq]
    abel

end TaskScheduler.LockFree.Ring
