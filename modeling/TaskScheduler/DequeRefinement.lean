import TaskScheduler.DequeAbstract
import TaskScheduler.DequeInvariant

/-!
# The Chase-Lev deque refines the double-ended list

The refinement mapping reads the list off the live array between `top_` and the
end of the deque. A push takes effect at its store of `bot_`, a pop at its load of
`top_` when more than one task is left and at its compare-and-swap otherwise, a
steal at its compare-and-swap. Every other access leaves the list alone.
-/
namespace TaskScheduler.Deque
open Transition Segment DequeAbstract

variable {α Thief : Type*}

/-- A pop that has read `top_` below its index, or has won the race, owes its task. -/
def ownerCall (m : Shared α) : OwnerPc α → Call α
  | .idle => .idle
  | .pushLoadBot task => .pushing task
  | .pushLoadTop task _ => .pushing task
  | .pushLoadArray task _ _ => .pushing task
  | .growCopy task _ _ _ _ => .pushing task
  | .growKeep task _ _ _ => .pushing task
  | .growStore task _ _ => .pushing task
  | .pushPut task _ _ => .pushing task
  | .pushStoreBot task _ => .pushing task
  | .popGet b a t =>
    match decide (t < b), (m.heap a).get b with
    | true, some x => .popped x
    | _, _ => .popping
  | .popRaiseBot _ won raw =>
    match won, raw with
    | true, some x => .popped x
    | _, _ => .popping
  | _ => .popping

def contents (m : Shared α) (pc : OwnerPc α) : List α :=
  segment m.live.get m.top (bottom m pc)

def abs (s : State Thief α) : DoubleEnded α :=
  ⟨contents s.mem s.owner, ownerCall s.mem s.owner⟩

/-- The abstract event of an owner's access. -/
def ownerEvent (m : Shared α) (pc : OwnerPc α) : Option (Event α) :=
  match pc with
  | .pushStoreBot task _ => some (.append task)
  | .popLoadTop b _ => if m.top < b then some .removeBack else none
  | .popCas _ t _ => if m.top = t then some .removeBack else none
  | pc => (ownerStep m pc).2.2.map .returnPop

def thiefEvent (m : Shared α) : ThiefPc α → Option (Event α)
  | .cas t raw => if m.top = t then some (.removeFront raw) else none
  | _ => none

def event (s : State Thief α) : Action Thief α → Option (Event α)
  | .push task => some (.callPush task)
  | .pop => some .callPop
  | .owner => ownerEvent s.mem s.owner
  | .steal _ => none
  | .thief i => thiefEvent s.mem (s.thief i)

/-- `d` leads to `d'` by the named event, or stays where none is named. -/
def Follows (d d' : DoubleEnded α) : Option (Event α) → Prop
  | some e => DequeAbstract.step d e = some d'
  | none => d' = d

/-- An access that moves neither end leaves the contents alone. -/
theorem contents_eq {m m' : Shared α} {pc pc' : OwnerPc α}
    (hr : Rely m m' (bottom m pc) (bottom m' pc')) (htop : m'.top = m.top)
    (hhi : bottom m' pc' = bottom m pc) : contents m' pc' = contents m pc := by
  unfold contents
  rw [htop, hhi]
  exact segment_congr hr.live

section Owner
variable {m : Shared α}

/-- The image of the owner's part of the state. -/
def image (m : Shared α) (pc : OwnerPc α) : DoubleEnded α := ⟨contents m pc, ownerCall m pc⟩

/-- The accesses that name no event: the contents stay, and so does the call. -/
theorem follows_none {m' : Shared α} {pc pc' : OwnerPc α}
    (hr : Rely m m' (bottom m pc) (bottom m' pc')) (htop : m'.top = m.top)
    (hhi : bottom m' pc' = bottom m pc) (hcall : ownerCall m' pc' = ownerCall m pc) :
    Follows (image m pc) (image m' pc') none := by
  simp only [Follows, image, contents_eq hr htop hhi, hcall]

theorem append_follows {task : α} {b : ℤ} (hm : MemOk m m.bot)
    (ho : OwnerOk m (.pushStoreBot task b)) :
    Follows (image m (.pushStoreBot task b)) (image { m with bot := b + 1 } .idle)
      (some (.append task)) := by
  obtain ⟨rfl, _, hx⟩ := ho
  have hsnoc : segment m.live.get m.top (m.bot + 1) = segment m.live.get m.top m.bot ++ [task] :=
    segment_snoc hm.top_le hx
  exact (step_append rfl).trans (congrArg (fun l => some (DoubleEnded.mk l .idle)) hsnoc.symm)

/-- The load of `top_` takes the last task out when it is not the only one. -/
theorem popLoadTop_follows {b : ℤ} {a : ℕ} (hm : MemOk m (m.bot + 1))
    (ho : OwnerOk m (.popLoadTop b a)) (hlt : m.top < b) :
    Follows (image m (.popLoadTop b a)) (image m (.popGet b a m.top)) (some .removeBack) := by
  obtain ⟨rfl, rfl⟩ := ho
  obtain ⟨x, hx⟩ := hm.filled m.bot hlt.le (by omega)
  have hsnoc : contents m (.popLoadTop m.bot m.array) =
      segment m.live.get m.top m.bot ++ [x] := segment_snoc hlt.le hx
  have hrest : contents m (.popGet m.bot m.array m.top) = segment m.live.get m.top m.bot := by
    simp [contents, bottom, hlt]
  have hcall : ownerCall m (.popGet m.bot m.array m.top) = .popped x := by
    have hget : (m.heap m.array).get m.bot = some x := hx
    simp [ownerCall, hlt, hget]
  have himage : image m (.popGet m.bot m.array m.top) =
      ⟨segment m.live.get m.top m.bot, .popped x⟩ := congrArg₂ DoubleEnded.mk hrest hcall
  exact (step_removeBack rfl hsnoc).trans (congrArg some himage.symm)

/-- The compare-and-swap takes the only task out. -/
theorem popCas_follows {b t : ℤ} {raw : Option α} (hm : MemOk m (m.bot + 1))
    (ho : OwnerOk m (.popCas b t raw)) (hwon : m.top = t) :
    Follows (image m (.popCas b t raw))
      (image { m with top := t + 1 } (.popRaiseBot b true raw)) (some .removeBack) := by
  obtain ⟨rfl, rfl, _, hraw⟩ := ho
  obtain ⟨x, hx⟩ := hm.filled m.bot hwon.le (by omega)
  have hr : raw = some x := (hraw hwon).trans hx
  subst hr
  have hone : contents m (.popCas m.bot m.bot (some x)) = [] ++ [x] := by
    rw [contents, hwon]
    exact (segment_snoc le_rfl hx).trans (by rw [segment_self])
  have himage : image { m with top := m.bot + 1 } (.popRaiseBot m.bot true (some x)) =
      ⟨[], .popped x⟩ := congrArg₂ DoubleEnded.mk (segment_self _ _) rfl
  exact (step_removeBack rfl hone).trans (congrArg some himage.symm)

/-- The call ends with the task it owes. -/
theorem returnPop_follows {m' : Shared α} {pc : OwnerPc α} {r : Option α}
    (hr : Rely m m' (bottom m pc) (bottom m' .idle)) (htop : m'.top = m.top)
    (hhi : bottom m' .idle = bottom m pc)
    (hcall : ownerCall m pc = match r with | some x => .popped x | none => .popping) :
    Follows (image m pc) (image m' .idle) (some (.returnPop r)) := by
  have himage : image m' .idle = ⟨contents m pc, .idle⟩ :=
    congrArg₂ DoubleEnded.mk (contents_eq hr htop hhi) rfl
  exact (step_returnPop hcall).trans (congrArg some himage.symm)

/-- Every access of the owner follows the event it names. -/
theorem owner_follows {pc : OwnerPc α} (hpc : pc ≠ .idle) (hm : MemOk m (bottom m pc))
    (ho : OwnerOk m pc) :
    Follows (image m pc) (image (ownerStep m pc).1 (ownerStep m pc).2.1) (ownerEvent m pc) := by
  have hr := (ownerStep_keeps hm ho).rely
  cases pc with
  | idle => exact absurd rfl hpc
  | pushLoadBot task => exact follows_none hr rfl rfl rfl
  | pushLoadTop task b => exact follows_none hr rfl rfl rfl
  | pushLoadArray task b t =>
    simp only [ownerEvent, ownerStep] at hr ⊢
    split_ifs at hr ⊢ <;> exact follows_none hr rfl rfl rfl
  | growCopy task b a next i =>
    simp only [ownerEvent, ownerStep] at hr ⊢
    split_ifs at hr ⊢ <;> exact follows_none hr rfl rfl rfl
  | growKeep task b a next => exact follows_none hr rfl rfl rfl
  | growStore task b next => exact follows_none hr rfl rfl rfl
  | pushPut task b a => exact follows_none hr rfl rfl rfl
  | pushStoreBot task b => exact append_follows hm ho
  | popLoadBot => exact follows_none hr rfl rfl rfl
  | popLoadArray b => exact follows_none hr rfl rfl rfl
  | popStoreBot b a => exact follows_none hr rfl ho.1.symm rfl
  | popLoadTop b a =>
    simp only [ownerEvent, ownerStep] at hr ⊢
    by_cases hempty : m.top > b
    · rw [if_pos hempty] at hr ⊢
      rw [if_neg (by omega)]
      exact follows_none hr rfl rfl rfl
    · rw [if_neg hempty] at hr ⊢
      by_cases hlt : m.top < b
      · rw [if_pos hlt]
        exact popLoadTop_follows hm ho hlt
      · rw [if_neg hlt]
        refine follows_none hr rfl (if_neg hlt) ?_
        simp [ownerCall, hlt]
  | popRestoreBot b => exact returnPop_follows hr rfl (congrArg (· + 1) ho.1.symm) rfl
  | popGet b a t =>
    simp only [ownerEvent, ownerStep] at hr ⊢
    obtain ⟨_, rfl, _, _, hx⟩ := ho
    by_cases hlt : t < b
    · rw [if_pos hlt] at hr ⊢
      obtain ⟨x, hx⟩ := hx hlt
      have hget : (m.heap m.array).get b = some x := hx
      refine returnPop_follows hr rfl (by simp [bottom, hlt]) ?_
      simp [ownerCall, hlt, hget]
    · rw [if_neg hlt] at hr ⊢
      refine follows_none hr rfl (by simp [bottom, hlt]) ?_
      simp [ownerCall, hlt]
  | popCas b t raw =>
    simp only [ownerEvent, ownerStep] at hr ⊢
    split_ifs at hr ⊢ with hwon
    · exact popCas_follows hm ho hwon
    · refine follows_none hr rfl rfl ?_
      cases raw <;> rfl
  | popRaiseBot b won raw =>
    refine returnPop_follows hr rfl (congrArg (· + 1) ho.1.symm) ?_
    cases won <;> cases raw <;> rfl

end Owner

/-- The access of a thief takes the front task when its compare-and-swap wins. -/
theorem thief_follows {m : Shared α} {pc : OwnerPc α} {tpc : ThiefPc α}
    (hm : MemOk m (bottom m pc)) (ho : OwnerOk m pc) (ht : ThiefOk m (bottom m pc) tpc) :
    Follows (image m pc) (image (thiefStep m tpc).1 pc) (thiefEvent m tpc) := by
  cases tpc with
  | idle => exact rfl
  | loadTop => exact rfl
  | loadBot t =>
    simp only [thiefEvent, thiefStep]
    split_ifs <;> exact rfl
  | loadArray t => exact rfl
  | get t a => exact rfl
  | cas t raw =>
    simp only [thiefEvent, thiefStep]
    split_ifs with hwon
    · obtain ⟨hlt, hraw⟩ := ht.2 hwon
      subst hwon
      obtain ⟨x, hx⟩ := hm.filled m.top le_rfl hlt
      have hcons : contents m pc = x :: contents { m with top := m.top + 1 } pc := by
        unfold contents
        rw [bottom_steal]
        exact segment_cons hlt hx
      -- no local of the owner is read through `top_`
      have hcall : ownerCall { m with top := m.top + 1 } pc = ownerCall m pc := by
        cases pc <;> rfl
      rw [hraw, hx]
      exact (step_removeFront hcons).trans (congrArg (fun c => some (DoubleEnded.mk _ c)) hcall.symm)
    · exact rfl

variable [DecidableEq Thief]

theorem step_follows {s s' : State Thief α} {a : Action Thief α} (h : Inv s)
    (hs : step s a = some s') : Follows (abs s) (abs s') (event s a) := by
  cases a with
  | push task =>
    cases hpc : s.owner <;> simp only [step, hpc, reduceCtorEq, Option.some.injEq] at hs
    subst hs
    simp [Follows, event, abs, DequeAbstract.step, ownerCall, hpc, contents, bottom]
  | pop =>
    cases hpc : s.owner <;> simp only [step, hpc, reduceCtorEq, Option.some.injEq] at hs
    subst hs
    simp [Follows, event, abs, DequeAbstract.step, ownerCall, hpc, contents, bottom]
  | owner =>
    have hidle : s.owner ≠ .idle := by
      rintro hpc
      simp [step, hpc] at hs
    have hf := owner_follows hidle h.mem h.owner
    cases hpc : s.owner <;> simp only [step, hpc, reduceCtorEq, Option.some.injEq] at hs <;>
      (subst hs; rw [hpc] at hf; simp only [abs, event, hpc]; exact hf)
  | steal i =>
    cases hpc : s.thief i <;> simp only [step, hpc, reduceCtorEq, Option.some.injEq] at hs
    subst hs
    rfl
  | thief i =>
    have hf := thief_follows h.mem h.owner (h.thief i)
    cases hpc : s.thief i <;> simp only [step, hpc, reduceCtorEq, Option.some.injEq] at hs <;>
      (subst hs; rw [hpc] at hf; simp only [abs, event, hpc]; exact hf)

/-- The deque as a refinement of the sequential double-ended list. -/
def refinement (Thief α : Type*) [DecidableEq Thief] :
    Refinement (machine Thief α) (DequeAbstract.machine α) Inv where
  map := abs
  label := event
  init := rfl
  step s a s' hI hs := by
    have h := step_follows hI hs
    cases he : event s a with
    | none =>
      rw [he] at h
      exact h
    | some e =>
      rw [he] at h
      exact h

omit [DecidableEq Thief] in
/-- The events record exactly the publications of the code. -/
theorem event_appended (s : State Thief α) (a : Action Thief α) :
    (event s a).bind Event.appended = pushed s a := by
  cases a with
  | owner =>
    cases hpc : s.owner <;> simp only [event, ownerEvent, pushed, hpc, ownerStep] <;>
      (try split_ifs) <;> rfl
  | thief i =>
    cases hpc : s.thief i <;> simp only [event, thiefEvent, pushed, hpc] <;>
      (try split_ifs) <;> rfl
  | _ => rfl

omit [DecidableEq Thief] in
/-- The events record exactly the tasks that the code returns. -/
theorem event_returned (s : State Thief α) (a : Action Thief α) :
    (event s a).bind Event.returned = returned s a := by
  cases a with
  | owner =>
    cases hpc : s.owner <;>
      simp only [event, ownerEvent, returned, popReturn, stealReturn, hpc, ownerStep] <;>
      (try split_ifs) <;> simp [Event.returned]
  | thief i =>
    cases hpc : s.thief i <;>
      simp only [event, thiefEvent, returned, popReturn, stealReturn, hpc, thiefStep] <;>
      (try split_ifs) <;> simp [Event.returned]
  | _ => rfl

theorem event_logs (tr : List (State Thief α × Action Thief α)) :
    log (fun _ e => Event.appended e) ((refinement Thief α).trace tr) = log pushed tr ∧
      log (fun _ e => Event.returned e) ((refinement Thief α).trace tr) = log returned tr := by
  constructor
  · rw [Refinement.log_trace]
    congr 1
    funext s a
    exact event_appended s a
  · rw [Refinement.log_trace]
    congr 1
    funext s a
    exact event_returned s a

theorem refinement_run {tr : List (State Thief α × Action Thief α)} {s : State Thief α}
    (h : Run (machine Thief α) tr s) :
    Run (DequeAbstract.machine α) ((refinement Thief α).trace tr) (abs s) :=
  (refinement Thief α).run inv_init inv_step h

/-- Every published task has been returned once, is owed by the pop in progress, or is in
the deque. -/
theorem deque_accounting {tr : List (State Thief α × Action Thief α)} {s : State Thief α}
    (h : Run (machine Thief α) tr s) :
    (log pushed tr : Multiset α) = (log returned tr : Multiset α) + (abs s).held := by
  have hacc := accounting (refinement_run h)
  rwa [(event_logs tr).1, (event_logs tr).2] at hacc

/-- Only the publishing store of a push moves the back of the list up. -/
theorem ownerStep_bottom {m : Shared α} {pc : OwnerPc α} (hm : MemOk m (bottom m pc))
    (ho : OwnerOk m pc) (hpc : ∀ task b, pc ≠ .pushStoreBot task b) :
    bottom (ownerStep m pc).1 (ownerStep m pc).2.1 ≤ bottom m pc := by
  have hroom := hm.top_le
  cases pc with
  | pushStoreBot task b => exact absurd rfl (hpc task b)
  | popStoreBot b a =>
    obtain ⟨hb, _⟩ := ho
    simp only [ownerStep, bottom]
    omega
  | popRestoreBot b =>
    obtain ⟨rfl, _⟩ := ho
    exact le_rfl
  | popRaiseBot b won raw =>
    obtain ⟨rfl, _⟩ := ho
    simp [ownerStep, bottom]
  | popLoadTop b a =>
    simp only [ownerStep]
    split_ifs
    · exact le_rfl
    · exact bottom_le_succ m _
  | popGet b a t =>
    simp only [ownerStep]
    split_ifs with hlt <;> simp [bottom, hlt]
  | pushLoadArray task b t =>
    simp only [ownerStep]
    split_ifs <;> exact le_rfl
  | growCopy task b a next i =>
    simp only [ownerStep]
    split_ifs <;> exact le_rfl
  | popCas b t raw =>
    simp only [ownerStep]
    split_ifs <;> exact le_rfl
  | _ => exact le_rfl

theorem thiefStep_bottom (m : Shared α) (tpc : ThiefPc α) (pc : OwnerPc α) :
    bottom (thiefStep m tpc).1 pc = bottom m pc := by
  cases tpc with
  | cas t raw =>
    simp only [thiefStep]
    split_ifs
    · exact bottom_steal m pc _
    · rfl
  | loadBot t =>
    simp only [thiefStep]
    split_ifs <;> rfl
  | _ => rfl

theorem step_bottom {s s' : State Thief α} {a : Action Thief α} (h : Inv s)
    (hs : step s a = some s') :
    bottom s'.mem s'.owner ≤ bottom s.mem s.owner + (pushed s a).toList.length := by
  cases a with
  | push task =>
    cases hpc : s.owner <;> simp only [step, hpc, reduceCtorEq, Option.some.injEq] at hs
    subst hs
    simp [bottom]
  | pop =>
    cases hpc : s.owner <;> simp only [step, hpc, reduceCtorEq, Option.some.injEq] at hs
    subst hs
    simp [bottom]
  | owner =>
    have hb := ownerStep_bottom h.mem h.owner
    cases hpc : s.owner with
    | pushStoreBot task b =>
      obtain ⟨rfl, _⟩ : b = s.mem.bot ∧ _ := hpc ▸ h.owner
      simp only [step, hpc, Option.some.injEq] at hs
      subst hs
      simp [pushed, hpc, ownerStep, bottom]
    | _ =>
      simp only [step, hpc, reduceCtorEq, Option.some.injEq] at hs <;>
      (subst hs; simpa [pushed, hpc] using hb)
  | steal i =>
    cases hpc : s.thief i <;> simp only [step, hpc, reduceCtorEq, Option.some.injEq] at hs
    subst hs
    simp [pushed]
  | thief i =>
    cases hpc : s.thief i <;> simp only [step, hpc, reduceCtorEq, Option.some.injEq] at hs <;>
      (subst hs; simp [pushed, thiefStep_bottom])

/-- The indices never leave the range of the pushes made so far, so no 64-bit index
overflows in a run with fewer than `2^63` pushes. -/
theorem index_bounds {tr : List (State Thief α × Action Thief α)} {s : State Thief α}
    (h : Run (machine Thief α) tr s) :
    0 ≤ s.mem.top ∧ s.mem.top ≤ (log pushed tr).length ∧
      -1 ≤ s.mem.bot ∧ s.mem.bot ≤ (log pushed tr).length := by
  obtain ⟨hinv, hle⟩ : Inv s ∧ bottom s.mem s.owner ≤ (log pushed tr).length := by
    refine Run.history (I := fun tr s => Inv s ∧ bottom s.mem s.owner ≤ (log pushed tr).length)
      ⟨inv_init, le_rfl⟩ ?_ h
    rintro tr u a v ⟨hinv, ih⟩ hs
    refine ⟨inv_step u a v hinv hs, ?_⟩
    have hb := step_bottom hinv hs
    rw [log_snoc, List.length_append]
    push_cast
    omega
  have h0 := hinv.mem.top_nonneg
  have h1 := hinv.mem.top_le
  have h2 := bot_le_bottom s.mem s.owner
  have h3 : bottom s.mem s.owner ≤ s.mem.bot + 1 := bottom_le_succ s.mem s.owner
  omega

omit [DecidableEq Thief] in
/-- The pointer that a call returns on a path where it claims to have got a task: a pop that
read `top_` below its index or won its compare-and-swap, a steal that won its own. -/
def success (s : State Thief α) : Action Thief α → Option (Option α)
  | .owner =>
    match s.owner with
    | .popGet b a t => if t < b then some ((s.mem.heap a).get b) else none
    | .popRaiseBot _ won raw => if won then some raw else none
    | _ => none
  | .thief i =>
    match s.thief i with
    | .cas t raw => if s.mem.top = t then some raw else none
    | _ => none
  | _ => none

omit [DecidableEq Thief] in
theorem success_returned {s : State Thief α} {a : Action Thief α} {raw : Option α} (h : Inv s)
    (hs : success s a = some raw) : ∃ x, raw = some x ∧ returned s a = some x ∧ pushed s a = none := by
  cases a with
  | owner =>
    have ho := h.owner
    cases hpc : s.owner <;> simp only [success, hpc, reduceCtorEq] at hs
    · rw [hpc] at ho
      obtain ⟨_, rfl, _, _, hx⟩ := ho
      split_ifs at hs with hlt
      obtain rfl := Option.some.inj hs
      obtain ⟨x, hx⟩ := hx hlt
      have hget : (s.mem.heap s.mem.array).get _ = some x := hx
      exact ⟨x, hget, by simp [returned, popReturn, stealReturn, hpc, ownerStep, hlt, hget],
        by simp [pushed, hpc]⟩
    · rw [hpc] at ho
      split_ifs at hs with hwon
      obtain rfl := Option.some.inj hs
      obtain ⟨x, rfl⟩ := ho.2.2 hwon
      exact ⟨x, rfl, by simp [returned, popReturn, stealReturn, hpc, ownerStep, hwon],
        by simp [pushed, hpc]⟩
  | thief i =>
    have ht := h.thief i
    cases hpc : s.thief i <;> simp only [success, hpc, reduceCtorEq] at hs
    rw [hpc] at ht
    split_ifs at hs with hwon
    obtain rfl := Option.some.inj hs
    obtain ⟨hlt, hraw⟩ := ht.2 hwon
    subst hwon
    obtain ⟨x, hx⟩ := h.mem.filled _ le_rfl hlt
    exact ⟨x, hraw.trans hx, by simp [returned, popReturn, stealReturn, hpc, thiefStep, hraw, hx],
      rfl⟩
  | _ => cases hs

/-- A successful call returns a task that was pushed before. -/
theorem success_pushed {pre : List (State Thief α × Action Thief α)} {u v : State Thief α}
    {a : Action Thief α} {raw : Option α} (h : Run (machine Thief α) pre u)
    (hv : step u a = some v) (hs : success u a = some raw) :
    ∃ x ∈ log pushed pre, raw = some x := by
  obtain ⟨x, hx, hr, hp⟩ := success_returned (inv_of_run h) hs
  have hacc := deque_accounting (Steps.snoc h hv)
  rw [log_snoc, log_snoc, hp, hr] at hacc
  have hle : (log returned pre ++ [x] : Multiset α) ≤ (log pushed pre : Multiset α) := by
    have heq : (log pushed pre : Multiset α) = ↑(log returned pre ++ [x]) + (abs v).held := by
      simpa using hacc
    rw [heq]
    exact Multiset.le_add_right _ _
  exact ⟨x, Multiset.mem_coe.mp (Multiset.mem_of_le hle (by simp)), hx⟩

/-- The Chase-Lev deque refines the sequential double-ended list: every access follows the
abstract event that `event` names at it and changes nothing where it names none. No task is
returned more often than it was pushed, every success returns a task pushed before, and
between calls the tasks not yet returned are the slots with indices in `[top_, bot_)`. -/
theorem deque_refines_sequential {tr : List (State Thief α × Action Thief α)}
    {s : State Thief α} (h : Run (machine Thief α) tr s) :
    Run (DequeAbstract.machine α) ((refinement Thief α).trace tr) (abs s) ∧
      (log returned tr : Multiset α) ≤ (log pushed tr : Multiset α) ∧
      (∀ pre u a post raw, tr = pre ++ (u, a) :: post → success u a = some raw →
        ∃ x ∈ log pushed pre, raw = some x) ∧
      (Quiescent s → Filled s.mem.live.get s.mem.top s.mem.bot ∧
        (log pushed tr : Multiset α) =
          (log returned tr : Multiset α) + (segment s.mem.live.get s.mem.top s.mem.bot : Multiset α)) := by
  have hacc := deque_accounting h
  refine ⟨refinement_run h, ?_, ?_, ?_⟩
  · rw [hacc]
    exact Multiset.le_add_right _ _
  · rintro pre u a post raw rfl hs
    obtain ⟨hpre, v, hv, _⟩ := Steps.split_at h
    exact success_pushed hpre hv hs
  · rintro ⟨ho, _⟩
    have hm := (inv_of_run h).mem
    rw [ho] at hm
    have hheld : (abs s).held = (segment s.mem.live.get s.mem.top s.mem.bot : Multiset α) := by
      simp [DoubleEnded.held, abs, contents, ho, ownerCall, Call.inHand, bottom]
    exact ⟨hm.filled, hheld ▸ hacc⟩

/-- A push, then a steal of the task it published. -/
def stealSchedule : List (Action (Fin 2) ℕ) :=
  List.flatten [[.push 7], List.replicate 5 .owner, [.steal 1], List.replicate 5 (.thief 1)]

def stealRun : List (State (Fin 2) ℕ × Action (Fin 2) ℕ) :=
  record (machine (Fin 2) ℕ) (machine (Fin 2) ℕ).init stealSchedule

theorem deque_refines_sequential_steal :
    ∃ s : State (Fin 2) ℕ, log returned stealRun = [7] ∧
      Run (DequeAbstract.machine ℕ) ((refinement (Fin 2) ℕ).trace stealRun) (abs s) := by
  have hen : (exec (machine (Fin 2) ℕ) (machine (Fin 2) ℕ).init stealSchedule).isSome := by
    decide
  obtain ⟨s, _, hs⟩ := exists_run hen
  exact ⟨s, by decide, (deque_refines_sequential hs).1⟩

end TaskScheduler.Deque
