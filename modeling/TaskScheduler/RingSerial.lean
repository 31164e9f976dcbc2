import TaskScheduler.RingInvariant

/-!
# The ring while one thread at a time is inside an operation

The slots between `tail_` and `head_` hold a queue of tasks, through every wrap of the indices
and of the 64-bit cursors and sequence numbers.
-/
namespace TaskScheduler.LockFree.Ring
open Transition

variable {θ α : Type*} {N log2Ring : ℕ}

section Words

theorem uint64_add (x y : ℕ) : uint64 (uint64 x + y) = uint64 (x + y) := Nat.mod_add_mod x _ y

theorem slot_uint64 (h : log2Ring ≤ 63) (p : ℕ) :
    slot log2Ring (uint64 p) = p % kRingSize log2Ring := by
  rw [slot_eq, uint64, kRingSize, Nat.mod_mod_of_dvd p (Nat.pow_dvd_pow 2 (by omega))]

theorem int64_uint64 (x : ℕ) : int64 (uint64 x) = int64 x := by
  rw [int64, uint64, Int.natCast_mod, int64]
  exact Int.emod_bmod x _

theorem diff_uint64 (x p : ℕ) : diff (uint64 x) (uint64 p) = int64 ((x : ℤ) - (p + 1 : ℕ)) := by
  rw [diff, uint64_add, int64_uint64, int64_uint64, int64, int64, int64, Int.bmod_sub_bmod,
    Int.sub_bmod_bmod, int64]

theorem diff_filled (p : ℕ) : diff (uint64 (p + 1)) (uint64 p) = 0 := by
  rw [diff_uint64, sub_self]
  rfl

theorem diff_free (p : ℕ) : diff (uint64 p) (uint64 p) = -1 := by
  rw [diff_uint64, Nat.cast_add, Nat.cast_one, show (p : ℤ) - (p + 1) = -1 by omega]
  decide

/-- Two positions less than a ring apart have different slots. -/
theorem mod_ne {p p' : ℕ} (h : p < p') (hN : p' < p + N) : p % N ≠ p' % N := by
  intro he
  have := mod_cases he
  omega

end Words

/-- The slots from position `T` on hold the tasks of `q`, and those up to position `U` are free. -/
structure Window (N : ℕ) (sequence : ℕ → ℕ) (payload : ℕ → Option α) (T : ℕ) (q : List α)
    (U : ℕ) : Prop where
  room : T + q.length ≤ U
  full : ∀ i x, q[i]? = some x →
    sequence ((T + i) % N) = uint64 (T + i + 1) ∧ payload ((T + i) % N) = some x
  free : ∀ p, T + q.length ≤ p → p < U → sequence (p % N) = uint64 p

/-- The window, with the cursors. -/
structure Cells (N : ℕ) (r : State θ α) (A H T : ℕ) (q : List α) (U : ℕ) : Prop
    extends Window N r.sequence r.payload T q U where
  tail : r.tail = uint64 A
  head : r.head = uint64 H

/-- The tasks in the ring and in the hand of the one thread that is inside an operation, in the
order in which they will be dequeued. -/
def Line (N : ℕ) (r : State θ α) (L : List α) : Pc α → Prop
  | .idle | .loadTail => ∃ T, Cells N r T (T + L.length) T L (T + N)
  | .reserve task => ∃ T q, L = q ++ [task] ∧ Cells N r T (T + q.length) T q (T + N)
  | .await pos task => ∃ T q, L = q ++ [task] ∧ pos = uint64 (T + q.length) ∧
      Cells N r T (T + q.length + 1) T q (T + N)
  | .store pos task => ∃ T q, L = q ++ [task] ∧ pos = uint64 (T + q.length) ∧ q.length < N ∧
      Cells N r T (T + q.length + 1) T q (T + N)
  | .publish pos => ∃ T q task, L = q ++ [task] ∧ pos = uint64 (T + q.length) ∧ q.length < N ∧
      r.payload ((T + q.length) % N) = some task ∧ Cells N r T (T + q.length + 1) T q (T + N)
  | .loadSequence pos => ∃ T, pos = uint64 T ∧ Cells N r T (T + L.length) T L (T + N)
  | .claim pos => ∃ T x q, L = x :: q ∧ pos = uint64 T ∧ Cells N r T (T + L.length) T L (T + N)
  | .exchange pos => ∃ T x q, L = x :: q ∧ pos = uint64 T ∧
      Cells N r (T + 1) (T + L.length) T L (T + N)
  | .release pos raw => ∃ T x q, L = x :: q ∧ pos = uint64 T ∧ raw = some x ∧
      Cells N r (T + 1) (T + 1 + q.length) (T + 1) q (T + N)
  | .returned raw => ∃ T q, L = raw.toList ++ q ∧ Cells N r T (T + q.length) T q (T + N)

section Steps
variable {r r' : State θ α} {sequence : ℕ → ℕ} {payload : ℕ → Option α} {A H T U : ℕ}
  {q L : List α} {t : θ}

/-- A store to a slot outside the tasks of the window. -/
theorem Window.setPayload (h : Window N sequence payload T q U) {j : ℕ} (raw : Option α)
    (hj : ∀ i < q.length, (T + i) % N ≠ j) :
    Window N sequence (Function.update payload j raw) T q U where
  room := h.room
  full i x hx := by
    obtain ⟨hseq, hpay⟩ := h.full i x hx
    refine ⟨hseq, ?_⟩
    rw [Function.update_of_ne (hj i (List.getElem?_eq_some_iff.mp hx).1)]
    exact hpay
  free := h.free

/-- The slot behind the tasks is filled. -/
theorem Window.publish (h : Window N sequence payload T q (T + N)) (hlt : q.length < N) {task : α}
    (hpay : payload ((T + q.length) % N) = some task) :
    Window N (Function.update sequence ((T + q.length) % N) (uint64 (T + q.length + 1))) payload T
      (q ++ [task]) (T + N) where
  room := by
    rw [List.length_append, List.length_singleton]
    omega
  full i x hx := by
    rcases Nat.lt_trichotomy i q.length with hi | rfl | hi
    · rw [List.getElem?_append_left hi] at hx
      rw [Function.update_of_ne (mod_ne (by omega) (by omega))]
      exact h.full i x hx
    · rw [List.getElem?_concat_length] at hx
      exact ⟨Function.update_self _ _ _, hpay.trans hx⟩
    · rw [List.getElem?_eq_none (by simp; omega)] at hx
      cases hx
  free p hp hU := by
    rw [List.length_append, List.length_singleton] at hp
    rw [Function.update_of_ne (mod_ne (by omega) (by omega)).symm]
    exact h.free p (by omega) hU

/-- The first task leaves its slot, which is not free yet. -/
theorem Window.exchange {x : α} (h : Window N sequence payload T (x :: q) (T + N)) :
    Window N sequence (Function.update payload (T % N) none) (T + 1) q (T + N) := by
  have hroom := h.room
  rw [List.length_cons] at hroom
  have hrest : Window N sequence payload (T + 1) q (T + N) := by
    refine ⟨by omega, fun i y hy => ?_, fun p hp hU => h.free p ?_ hU⟩
    · rw [show T + 1 + i = T + (i + 1) by omega]
      exact h.full (i + 1) y hy
    · rw [List.length_cons]
      omega
  exact hrest.setPayload none fun i hi => (mod_ne (by omega) (by omega)).symm

/-- The slot that was taken is free for the next generation. -/
theorem Window.release (h : Window N sequence payload (T + 1) q (T + N)) :
    Window N (Function.update sequence (T % N) (uint64 (T + N))) payload (T + 1) q
      (T + 1 + N) where
  room := by
    have := h.room
    omega
  full i x hx := by
    have hroom := h.room
    have hi := (List.getElem?_eq_some_iff.mp hx).1
    rw [Function.update_of_ne (mod_ne (by omega) (by omega)).symm]
    exact h.full i x hx
  free p hp hU := by
    rcases Nat.lt_or_ge p (T + N) with hlt | hge
    · rw [Function.update_of_ne (mod_ne (by omega) (by omega)).symm]
      exact h.free p hp hlt
    · obtain rfl : p = T + N := by omega
      rw [Nat.add_mod_right]
      exact Function.update_self _ _ _

/-- At most one task is in hand. -/
theorem Line.length_le {pc : Pc α} (h : Line N r L pc) : L.length ≤ N + 1 := by
  have hone : ∀ {T U : ℕ} {q : List α} {x : α}, Window N r.sequence r.payload T q U → U ≤ T + N →
      (q ++ [x]).length ≤ N + 1 := by
    intro T U q x hw hU
    have hroom := hw.room
    rw [List.length_append, List.length_singleton]
    omega
  cases pc with
  | idle | loadTail =>
    obtain ⟨T, hc⟩ := h
    have := hc.room
    omega
  | reserve task =>
    obtain ⟨T, q, rfl, hc⟩ := h
    exact hone hc.toWindow le_rfl
  | await pos task =>
    obtain ⟨T, q, rfl, -, hc⟩ := h
    exact hone hc.toWindow le_rfl
  | store pos task =>
    obtain ⟨T, q, rfl, -, -, hc⟩ := h
    exact hone hc.toWindow le_rfl
  | publish pos =>
    obtain ⟨T, q, task, rfl, -, -, -, hc⟩ := h
    exact hone hc.toWindow le_rfl
  | loadSequence pos =>
    obtain ⟨T, -, hc⟩ := h
    have := hc.room
    omega
  | claim pos | exchange pos =>
    obtain ⟨T, x, q, -, -, hc⟩ := h
    have := hc.room
    omega
  | release pos raw =>
    obtain ⟨T, x, q, rfl, -, -, hc⟩ := h
    have := hc.room
    rw [List.length_cons]
    omega
  | returned raw =>
    obtain ⟨T, q, rfl, hc⟩ := h
    have hroom := hc.room
    have hlen : raw.toList.length ≤ 1 := by cases raw <;> simp
    rw [List.length_append]
    omega

/-- A slot that does not come free holds a task of a full ring. -/
theorem Line.full (hN : log2Ring ≤ 63) {pos : ℕ} {task : α}
    (h : Line (kRingSize log2Ring) r L (.await pos task))
    (hne : r.sequence (slot log2Ring pos) ≠ pos) : L.length = kRingSize log2Ring + 1 := by
  obtain ⟨T, q, rfl, rfl, hc⟩ := h
  have hroom := hc.room
  rw [List.length_append, List.length_singleton]
  by_contra hlt
  rw [slot_uint64 hN] at hne
  exact hne (hc.free _ le_rfl (by omega))

variable [DecidableEq θ]

theorem goto_payload {pc : Pc α} : (r.goto t pc).payload = r.payload := rfl

theorem cells_goto {pc : Pc α} :
    Cells N (r.goto t pc) A H T q U ↔ Cells N r A H T q U :=
  ⟨fun h => ⟨h.toWindow, h.tail, h.head⟩, fun h => ⟨h.toWindow, h.tail, h.head⟩⟩

theorem line_goto {pc pc' : Pc α} : Line N (r.goto t pc) L pc' ↔ Line N r L pc' := by
  cases pc' <;> simp only [Line, cells_goto, goto_payload]

/-- An access moves no task past another. -/
theorem Line.access (hlo : 1 ≤ log2Ring) (hhi : log2Ring ≤ 63) {spurious : Bool}
    (h : Line (kRingSize log2Ring) r L (r.threads t))
    (hs : access log2Ring r t spurious = some r') :
    Line (kRingSize log2Ring) r' L (r'.threads t) := by
  have hN := two_le_kRingSize hlo
  have hN' := kRingSize_le hhi
  cases hpc : r.threads t with
  | reserve task =>
    rw [hpc] at h
    obtain ⟨T, q, rfl, hc⟩ := h
    simp only [Ring.access, hpc, Option.some.injEq] at hs
    subst hs
    rw [goto_self, line_goto]
    exact ⟨T, q, rfl, hc.head, hc.toWindow, hc.tail, hc.head ▸ uint64_add _ 1⟩
  | await pos task =>
    rw [hpc] at h
    simp only [Ring.access, hpc] at hs
    split_ifs at hs with hseq <;> cases hs
    · obtain ⟨T, q, rfl, rfl, hc⟩ := h
      rw [goto_self, line_goto]
      refine ⟨T, q, rfl, rfl, ?_, hc⟩
      have hroom := hc.room
      by_contra hge
      have hlen : q.length = kRingSize log2Ring := by omega
      obtain ⟨x, hx⟩ : ∃ x, q[0]? = some x := ⟨_, List.getElem?_eq_getElem (by omega)⟩
      have hfull := (hc.full 0 x hx).1
      rw [slot_uint64 hhi, hlen, Nat.add_mod_right] at hseq
      rw [Nat.add_zero, hseq, uint64, uint64] at hfull
      omega
    · rw [hpc]
      exact h
  | store pos task =>
    rw [hpc] at h
    obtain ⟨T, q, rfl, rfl, hlt, hc⟩ := h
    simp only [Ring.access, hpc, slot_uint64 hhi, Option.some.injEq] at hs
    subst hs
    rw [goto_self, line_goto]
    refine ⟨T, q, task, rfl, rfl, hlt, setPayload_self r _ _, ?_, hc.tail, hc.head⟩
    exact hc.toWindow.setPayload _ fun i hi => mod_ne (by omega) (by omega)
  | publish pos =>
    rw [hpc] at h
    obtain ⟨T, q, task, rfl, rfl, hlt, hpay, hc⟩ := h
    simp only [Ring.access, hpc, slot_uint64 hhi, uint64_add, Option.some.injEq] at hs
    subst hs
    rw [goto_self, line_goto]
    refine ⟨T, hc.toWindow.publish hlt hpay, hc.tail, ?_⟩
    rw [List.length_append, List.length_singleton]
    exact hc.head
  | loadTail =>
    rw [hpc] at h
    obtain ⟨T, hc⟩ := h
    simp only [Ring.access, hpc, Option.some.injEq] at hs
    subst hs
    rw [goto_self, line_goto]
    exact ⟨T, hc.tail, hc⟩
  | loadSequence pos =>
    rw [hpc] at h
    obtain ⟨T, rfl, hc⟩ := h
    simp only [Ring.access, hpc, slot_uint64 hhi] at hs
    cases L with
    | nil =>
      rw [hc.free T le_rfl (by omega), diff_free, if_neg (by decide), if_pos (by decide)] at hs
      obtain rfl := Option.some.inj hs
      rw [goto_self, line_goto]
      exact ⟨T, [], rfl, hc⟩
    | cons x q =>
      have hseq := (hc.full 0 x rfl).1
      rw [Nat.add_zero] at hseq
      rw [hseq, diff_filled, if_pos rfl] at hs
      obtain rfl := Option.some.inj hs
      rw [goto_self, line_goto]
      exact ⟨T, x, q, rfl, rfl, hc⟩
  | claim pos =>
    rw [hpc] at h
    obtain ⟨T, x, q, rfl, rfl, hc⟩ := h
    simp only [Ring.access, hpc] at hs
    split_ifs at hs with hwin <;> cases hs
    · rw [goto_self, line_goto]
      exact ⟨T, x, q, rfl, rfl, hc.toWindow, uint64_add T 1, hc.head⟩
    · rw [goto_self, line_goto]
      exact ⟨T, hc.tail, hc⟩
  | exchange pos =>
    rw [hpc] at h
    obtain ⟨T, x, q, rfl, rfl, hc⟩ := h
    have hpay := (hc.full 0 x rfl).2
    rw [Nat.add_zero] at hpay
    simp only [Ring.access, hpc, slot_uint64 hhi, hpay, Option.some.injEq] at hs
    subst hs
    rw [goto_self, line_goto]
    refine ⟨T, x, q, rfl, rfl, rfl, hc.toWindow.exchange, hc.tail, ?_⟩
    have hhead := hc.head
    rw [List.length_cons] at hhead
    rw [show T + 1 + q.length = T + (q.length + 1) by omega]
    exact hhead
  | release pos raw =>
    rw [hpc] at h
    obtain ⟨T, x, q, rfl, rfl, rfl, hc⟩ := h
    simp only [Ring.access, hpc, slot_uint64 hhi, uint64_add, Option.some.injEq] at hs
    subst hs
    rw [goto_self, line_goto]
    exact ⟨T + 1, q, rfl, hc.toWindow.release, hc.tail, hc.head⟩
  | idle => simp [Ring.access, hpc] at hs
  | returned raw => simp [Ring.access, hpc] at hs

/-- Only thread `t` may be inside an operation, and `L` is its line. -/
structure Serial (N : ℕ) (r : State θ α) (t : θ) (L : List α) : Prop where
  line : Line N r L (r.threads t)
  others : ∀ t' ≠ t, r.threads t' = .idle

/-- Between two operations it may be the turn of any thread. -/
theorem Serial.turn (h : Serial N r t L) (hidle : r.threads t = .idle) (t' : θ) :
    Serial N r t' L := by
  have hall : ∀ t', r.threads t' = .idle := by
    intro t'
    by_cases ht : t' = t
    · rw [ht, hidle]
    · exact h.others t' ht
  refine ⟨?_, fun t₁ _ => hall t₁⟩
  rw [hall t', ← hidle]
  exact h.line

/-- The other threads stay where they are. -/
theorem Serial.next (h : Serial N r t L) {a : Action θ α} (hs : step log2Ring r a = some r')
    (ha : a.thread = t) {L' : List α} (hline : Line N r' L' (r'.threads t)) :
    Serial N r' t L' := by
  obtain ⟨pc, hth, -⟩ := step_threads hs
  refine ⟨hline, fun t' ht' => ?_⟩
  rw [hth, ha, Function.update_of_ne ht']
  exact h.others t' ht'

theorem Serial.enqueue (h : Serial N r t L) {task : α}
    (hs : step log2Ring r (.enqueue t task) = some r') : Serial N r' t (L ++ [task]) := by
  refine h.next hs rfl ?_
  have hline := h.line
  cases hpc : r.threads t <;> simp only [step, hpc, reduceCtorEq, Option.some.injEq] at hs
  rw [hpc] at hline
  obtain ⟨T, hc⟩ := hline
  subst hs
  rw [goto_self, line_goto]
  exact ⟨T, L, rfl, hc⟩

theorem Serial.dequeue (h : Serial N r t L) (hs : step log2Ring r (.dequeue t) = some r') :
    Serial N r' t L := by
  refine h.next hs rfl ?_
  have hline := h.line
  cases hpc : r.threads t <;> simp only [step, hpc, reduceCtorEq, Option.some.injEq] at hs
  rw [hpc] at hline
  subst hs
  rw [goto_self, line_goto]
  exact hline

theorem Serial.access (hlo : 1 ≤ log2Ring) (hhi : log2Ring ≤ 63)
    (h : Serial (kRingSize log2Ring) r t L) {t' : θ} {spurious : Bool}
    (hs : step log2Ring r (.access t' spurious) = some r') :
    Serial (kRingSize log2Ring) r' t L := by
  have ht : t' = t := by
    by_contra hne
    simp [step, Ring.access, h.others t' hne] at hs
  subst ht
  exact h.next hs rfl (h.line.access hlo hhi hs)

/-- The caller takes the first task of the line. -/
theorem Serial.finish (h : Serial N r t L) {raw : Option α} (hraw : r.threads t = .returned raw)
    (hs : step log2Ring r (.finish t) = some r') :
    ∃ q, L = raw.toList ++ q ∧ Serial N r' t q := by
  have hline := h.line
  rw [hraw] at hline
  obtain ⟨T, q, rfl, hc⟩ := hline
  refine ⟨q, rfl, h.next hs rfl ?_⟩
  simp only [step, hraw, Option.some.injEq] at hs
  subst hs
  rw [goto_self, line_goto]
  exact ⟨T, hc⟩

theorem serial_init (hhi : log2Ring ≤ 63) (t : θ) :
    Serial (kRingSize log2Ring) (machine θ α log2Ring).init t [] := by
  refine ⟨⟨0, ⟨Nat.zero_le _, nofun, fun p _ hp => ?_⟩, rfl, rfl⟩, fun _ _ => rfl⟩
  have hN := kRingSize_le hhi
  change p % kRingSize log2Ring = uint64 p
  rw [Nat.mod_eq_of_lt (by omega), uint64_of_lt (by omega)]

end Steps

end TaskScheduler.LockFree.Ring
