import TaskScheduler.Transition

/-!
# The sequential double-ended list

What the deque is for: the owner appends and removes at the back, thieves remove
at the front, and every removed task is handed to the call that removed it. A
failing call changes nothing.
-/
namespace TaskScheduler.DequeAbstract
open Transition

variable {α : Type*}

/-- The call of the owner: a pop has removed nothing yet, or owes the task it removed. -/
inductive Call (α : Type*)
  | idle
  | pushing (task : α)
  | popping
  | popped (task : α)

structure DoubleEnded (α : Type*) where
  items : List α
  owner : Call α

inductive Event (α : Type*)
  | callPush (task : α)
  | append (task : α)
  | callPop
  | removeBack
  | returnPop (r : Option α)
  | removeFront (r : Option α)

open Classical in
/-- `append` ends its push; `removeFront` returns from its steal, with the task it took. -/
noncomputable def step (d : DoubleEnded α) : Event α → Option (DoubleEnded α)
  | .callPush task =>
    match d.owner with
    | .idle => some { d with owner := .pushing task }
    | _ => none
  | .append task =>
    if d.owner = .pushing task then some ⟨d.items ++ [task], .idle⟩ else none
  | .callPop =>
    match d.owner with
    | .idle => some { d with owner := .popping }
    | _ => none
  | .removeBack =>
    match d.owner, d.items.getLast? with
    | .popping, some x => some ⟨d.items.dropLast, .popped x⟩
    | _, _ => none
  | .returnPop r =>
    match d.owner with
    | .popping => if r = none then some { d with owner := .idle } else none
    | .popped x => if r = some x then some { d with owner := .idle } else none
    | _ => none
  | .removeFront r =>
    match d.items with
    | x :: rest => if r = some x then some { d with items := rest } else none
    | [] => none

noncomputable def machine (α : Type*) : Machine (DoubleEnded α) (Event α) where
  init := ⟨[], .idle⟩
  step := step

theorem step_append {d : DoubleEnded α} {task : α} (ho : d.owner = .pushing task) :
    step d (.append task) = some ⟨d.items ++ [task], .idle⟩ := if_pos ho

theorem step_removeBack {d : DoubleEnded α} {rest : List α} {x : α} (ho : d.owner = .popping)
    (hi : d.items = rest ++ [x]) : step d .removeBack = some ⟨rest, .popped x⟩ := by
  simp only [step, ho, hi, List.getLast?_concat, List.dropLast_concat]

theorem step_removeFront {d : DoubleEnded α} {rest : List α} {x : α} (hi : d.items = x :: rest) :
    step d (.removeFront (some x)) = some ⟨rest, d.owner⟩ := by
  simp [step, hi]

/-- A pop returns the task it owes, and nothing if it owes none. -/
theorem step_returnPop {d : DoubleEnded α} {r : Option α}
    (ho : d.owner = match r with | some x => .popped x | none => .popping) :
    step d (.returnPop r) = some ⟨d.items, .idle⟩ := by
  cases r <;> simp [step, ho]

def Event.appended : Event α → Option α
  | .append task => some task
  | _ => none

/-- The task that this event hands to a caller. -/
def Event.returned : Event α → Option α
  | .returnPop r => r
  | .removeFront r => r
  | _ => none

/-- The task that has left the list but not yet reached the caller of the pop. -/
def Call.inHand : Call α → Multiset α
  | .popped x => {x}
  | _ => 0

def DoubleEnded.held (d : DoubleEnded α) : Multiset α := d.owner.inHand + (d.items : Multiset α)

/-- One event moves tasks between the caller, the list and the pop, and loses none. -/
theorem step_held {d d' : DoubleEnded α} {e : Event α} (h : step d e = some d') :
    d'.held + (e.returned.toList : Multiset α) = d.held + (e.appended.toList : Multiset α) := by
  cases e with
  | callPush task =>
    cases ho : d.owner <;> simp only [step, ho, reduceCtorEq, Option.some.injEq] at h
    subst h
    simp [DoubleEnded.held, Call.inHand, ho, Event.returned, Event.appended]
  | append task =>
    simp only [step] at h
    split_ifs at h with ho
    obtain rfl := Option.some.inj h
    simp [DoubleEnded.held, Call.inHand, ho, Event.returned, Event.appended,
      ← Multiset.coe_add]
  | callPop =>
    cases ho : d.owner <;> simp only [step, ho, reduceCtorEq, Option.some.injEq] at h
    subst h
    simp [DoubleEnded.held, Call.inHand, ho, Event.returned, Event.appended]
  | removeBack =>
    cases ho : d.owner <;> cases hl : d.items.getLast? <;>
      simp only [step, ho, hl, reduceCtorEq, Option.some.injEq] at h
    rename_i x
    subst h
    have hsplit : d.items.dropLast ++ [x] = d.items := by
      obtain ⟨pre, hpre⟩ := List.getLast?_eq_some_iff.mp hl
      rw [hpre, List.dropLast_concat]
    have hcoe : (d.items : Multiset α) = (d.items.dropLast : Multiset α) + {x} := by
      conv_lhs => rw [← hsplit]
      simp [← Multiset.coe_add]
    simp only [DoubleEnded.held, Call.inHand, ho, Event.returned, Event.appended, hcoe,
      Option.toList_none, Multiset.coe_nil]
    abel
  | returnPop r =>
    cases ho : d.owner <;> simp only [step, ho, reduceCtorEq] at h
    · split_ifs at h with hr
      obtain rfl := Option.some.inj h
      simp [DoubleEnded.held, Call.inHand, ho, Event.returned, Event.appended, hr]
    · split_ifs at h with hr
      obtain rfl := Option.some.inj h
      simp [DoubleEnded.held, Call.inHand, ho, Event.returned, Event.appended, hr, add_comm]
  | removeFront r =>
    cases hi : d.items <;> simp only [step, hi, reduceCtorEq] at h
    rename_i x rest
    split_ifs at h with hr
    obtain rfl := Option.some.inj h
    simp only [DoubleEnded.held, hi, Event.returned, Event.appended, hr, Option.toList_some,
      Option.toList_none, ← Multiset.cons_coe, Multiset.coe_nil, Multiset.cons_zero, add_zero]
    rw [← Multiset.singleton_add]
    abel

/-- Every task ever appended has been returned once, is owed by the pop in progress, or is
still in the list. -/
theorem accounting {tr : List (DoubleEnded α × Event α)} {d : DoubleEnded α}
    (h : Run (machine α) tr d) :
    (log (fun _ e => e.appended) tr : Multiset α) =
      (log (fun _ e => e.returned) tr : Multiset α) + d.held := by
  refine Run.history (I := fun tr d => (log (fun _ e => e.appended) tr : Multiset α) =
    (log (fun _ e => e.returned) tr : Multiset α) + d.held) ?_ ?_ h
  · simp [machine, DoubleEnded.held, Call.inHand]
  · intro tr u e v ih hs
    have hstep := step_held hs
    rw [log_snoc, log_snoc, ← Multiset.coe_add, ← Multiset.coe_add, ih, add_assoc, ← hstep]
    abel

end TaskScheduler.DequeAbstract
