import TaskScheduler.DequeGrowth
import TaskScheduler.DequeRefinement

/-!
# What a failing call of the Chase-Lev deque has seen

The null answers of `pop_bottom` and `steal`, against the tasks that are in the deque when they
are given and the compare-and-swaps on `top_` before and after them.
-/
namespace TaskScheduler.Deque
open Transition Segment DequeAbstract

variable {α Thief : Type*} {s s' : State Thief α} {a : Action Thief α} {i : Thief}

/-- The pointer of a compare-and-swap on `top_` that succeeds with the step. -/
def wins (s : State Thief α) : Action Thief α → Option (Option α)
  | .owner =>
    match s.owner with
    | .popCas _ t raw => if s.mem.top = t then some raw else none
    | _ => none
  | .thief i =>
    match s.thief i with
    | .cas t raw => if s.mem.top = t then some raw else none
    | _ => none
  | _ => none

/-- The tasks that calls have taken: those returned, and that of a pop which has read `top_` below
its index or won its compare-and-swap. -/
def taken (tr : List (State Thief α × Action Thief α)) (s : State Thief α) : Multiset α :=
  (log returned tr : Multiset α) + (ownerCall s.mem s.owner).inHand

/-- The index that the `steal` has read from `top_`. -/
def ThiefPc.index : ThiefPc α → Option ℤ
  | .loadBot t | .loadArray t | .get t _ | .cas t _ => some t
  | _ => none

/-- The pop has lowered `bot_` to `b` and may still take the task there. -/
def OwnerPc.contests (b : ℤ) : OwnerPc α → Prop
  | .popLoadTop b' _ => b' = b
  | .popGet b' _ t => b' = b ∧ t = b
  | .popCas b' t _ => b' = b ∧ t = b
  | _ => False

/-- The `steal` has not read `top_`, or has read it above a `bot_` that has been lowered. -/
def ThiefPc.late (m : Shared α) : ThiefPc α → Prop
  | .idle | .loadTop => True
  | .loadBot t => m.bot ≤ t
  | _ => False

section Answers

/-- Whose compare-and-swap succeeds, obtains the task at `top_`. -/
theorem Inv.wins_live (h : Inv s) {raw : Option α} (hw : wins s a = some raw) :
    raw = s.mem.live.get s.mem.top ∧ ∃ x, raw = some x := by
  cases a with
  | owner =>
    have hm := h.mem
    have ho := h.owner
    cases hpc : s.owner <;> simp only [wins, hpc, reduceCtorEq] at hw
    rename_i b t raw'
    rw [hpc] at hm ho
    split_ifs at hw with htop
    cases hw
    obtain ⟨hb, rfl, -, hraw⟩ := ho
    have hlt : s.mem.top < bottom s.mem (.popCas t t raw) := by
      simp only [bottom]
      omega
    obtain ⟨x, hx⟩ := hm.filled _ le_rfl hlt
    have heq : raw = s.mem.live.get s.mem.top := by rw [hraw htop, htop]
    exact ⟨heq, x, heq.trans hx⟩
  | thief i =>
    have ht := h.thief i
    cases hpc : s.thief i <;> simp only [wins, hpc, reduceCtorEq] at hw
    rw [hpc] at ht
    split_ifs at hw with htop
    cases hw
    obtain ⟨hlt, hraw⟩ := ht.2 htop
    subst htop
    obtain ⟨x, hx⟩ := h.mem.filled _ le_rfl hlt
    exact ⟨hraw, x, hraw.trans hx⟩
  | _ => cases hw

/-- A pop that returns null leaves the deque empty and takes nothing with it. -/
theorem Inv.null_pop (h : Inv s) (hr : popReturn s a = some none) :
    contents s.mem s.owner = [] ∧ (ownerCall s.mem s.owner).inHand = 0 := by
  cases a with
  | owner =>
    have hm := h.mem
    have ho := h.owner
    cases hpc : s.owner with
    | popRestoreBot b =>
      rw [hpc] at ho
      obtain ⟨rfl, htop⟩ := ho
      refine ⟨?_, rfl⟩
      rw [contents, bottom, htop, segment_self]
    | popGet b c t =>
      rw [hpc] at ho
      obtain ⟨-, rfl, -, -, hx⟩ := ho
      simp only [popReturn, hpc, ownerStep] at hr
      split_ifs at hr with hlt
      obtain ⟨x, hx⟩ := hx hlt
      have hnone : (s.mem.heap s.mem.array).get b = none := Option.some.inj hr
      exact absurd (hnone.symm.trans hx) (by simp)
    | popRaiseBot b won raw =>
      rw [hpc] at ho
      obtain ⟨rfl, htop, hraw⟩ := ho
      have hlost : won = false := by
        by_contra hwon
        have hwon' : won = true := by simpa using hwon
        obtain ⟨x, rfl⟩ := hraw hwon'
        simp [popReturn, hpc, ownerStep, hwon'] at hr
      refine ⟨?_, by rw [hlost]; rfl⟩
      rw [contents, bottom, htop, segment_self]
    | pushLoadArray task b t =>
      simp only [popReturn, hpc, ownerStep] at hr
      split_ifs at hr
    | growCopy task b c next i =>
      simp only [popReturn, hpc, ownerStep] at hr
      split_ifs at hr
    | popLoadTop b c =>
      simp only [popReturn, hpc, ownerStep] at hr
      split_ifs at hr
    | popCas b t raw =>
      simp only [popReturn, hpc, ownerStep] at hr
      split_ifs at hr
    | _ => simp [popReturn, hpc, ownerStep] at hr
  | _ => cases hr

/-- When `steal` finds the deque empty, there is nothing in it, or the one task for which a pop has
lowered `bot_`. -/
theorem Inv.empty_steal (h : Inv s) (hr : stealReturn s (.thief i) = some ⟨none, true⟩) :
    contents s.mem s.owner = [] ∨ ∃ x, contents s.mem s.owner = [x] ∧
      s.mem.top = s.mem.bot ∧ s.mem.live.get s.mem.bot = some x ∧
        s.owner.contests s.mem.bot := by
  have hle : s.mem.bot ≤ s.mem.top := by
    have ht := h.thief i
    cases hpc : s.thief i with
    | loadBot t =>
      rw [hpc] at ht
      have htop : t ≤ s.mem.top := ht
      simp only [stealReturn, hpc, thiefStep] at hr
      split_ifs at hr with hge
      omega
    | cas t raw =>
      simp only [stealReturn, hpc, thiefStep] at hr
      split_ifs at hr <;> cases hr
    | _ => simp [stealReturn, hpc, thiefStep] at hr
  have hm := h.mem
  rcases hm.top_le.eq_or_lt with htop | hlt
  · left
    rw [contents, htop, segment_self]
  · right
    have hsucc := bottom_le_succ s.mem s.owner
    have htop : s.mem.top = s.mem.bot := by omega
    obtain ⟨x, hx⟩ := hm.filled _ le_rfl hlt
    have hend : bottom s.mem s.owner = s.mem.top + 1 := by omega
    refine ⟨x, ?_, htop, htop ▸ hx, ?_⟩
    · rw [contents, hend, segment_snoc le_rfl hx, segment_self]
      rfl
    · have ho := h.owner
      cases hpc : s.owner with
      | popLoadTop b c =>
        rw [hpc] at ho
        exact ho.1.symm
      | popGet b c t =>
        rw [hpc] at ho hend
        obtain ⟨hb, -, htb, -, -⟩ := ho
        refine ⟨hb.symm, ?_⟩
        simp only [bottom] at hend
        split_ifs at hend <;> omega
      | popCas b t raw =>
        rw [hpc] at ho
        exact ⟨ho.1.symm, by rw [ho.2.1, ho.1]⟩
      | popRestoreBot b =>
        rw [hpc] at ho
        obtain ⟨hb, ht⟩ := ho
        omega
      | popRaiseBot b won raw =>
        rw [hpc] at ho
        obtain ⟨hb, ht, -⟩ := ho
        omega
      | _ =>
        rw [hpc] at hend
        simp only [bottom] at hend
        omega

end Answers

section Steps
variable [DecidableEq Thief]

/-- `top_` moves only with a compare-and-swap that succeeds. -/
theorem top_step (hs : step s a = some s') :
    s'.mem.top = s.mem.top ∨ ∃ raw, wins s a = some raw := by
  cases a with
  | push task =>
    cases hpc : s.owner <;> simp only [step, hpc, reduceCtorEq, Option.some.injEq] at hs
    exact .inl (hs ▸ rfl)
  | pop =>
    cases hpc : s.owner <;> simp only [step, hpc, reduceCtorEq, Option.some.injEq] at hs
    exact .inl (hs ▸ rfl)
  | steal i =>
    cases hpc : s.thief i <;> simp only [step, hpc, reduceCtorEq, Option.some.injEq] at hs
    exact .inl (hs ▸ rfl)
  | owner =>
    cases hpc : s.owner <;> simp only [step, hpc, reduceCtorEq, Option.some.injEq] at hs
    case popCas b t raw =>
      by_cases htop : s.mem.top = t
      · exact .inr ⟨raw, by simp only [wins, hpc, if_pos htop]⟩
      · left
        simp only [← hs, ownerStep, if_neg htop]
    all_goals
      left
      rw [← hs]
      simp only [ownerStep]
      try split_ifs
      all_goals rfl
  | thief i =>
    cases hpc : s.thief i <;> simp only [step, hpc, reduceCtorEq, Option.some.injEq] at hs
    case cas t raw =>
      by_cases htop : s.mem.top = t
      · exact .inr ⟨raw, by simp only [wins, hpc, if_pos htop]⟩
      · left
        simp only [← hs, thiefStep, if_neg htop]
    all_goals
      left
      rw [← hs]
      simp only [thiefStep]
      try split_ifs
      all_goals rfl

/-- A thief that does not move stays where it is. -/
theorem thief_step (hs : step s a = some s') (hsteal : a ≠ .steal i)
    (hthief : a ≠ .thief i) : s'.thief i = s.thief i := by
  cases a with
  | push task =>
    cases hpc : s.owner <;> simp only [step, hpc, reduceCtorEq, Option.some.injEq] at hs
    rw [← hs]
  | pop =>
    cases hpc : s.owner <;> simp only [step, hpc, reduceCtorEq, Option.some.injEq] at hs
    rw [← hs]
  | owner =>
    cases hpc : s.owner <;> simp only [step, hpc, reduceCtorEq, Option.some.injEq] at hs <;>
      rw [← hs]
  | steal j =>
    have hne : i ≠ j := fun he => hsteal (he ▸ rfl)
    cases hpc : s.thief j <;> simp only [step, hpc, reduceCtorEq, Option.some.injEq] at hs
    rw [← hs]
    exact Function.update_of_ne hne _ _
  | thief j =>
    have hne : i ≠ j := fun he => hthief (he ▸ rfl)
    cases hpc : s.thief j <;> simp only [step, hpc, reduceCtorEq, Option.some.injEq] at hs <;>
      (rw [← hs]; exact Function.update_of_ne hne _ _)

theorem thief_step_self (hs : step s (.thief i) = some s') :
    s.thief i ≠ .idle ∧ s'.mem = (thiefStep s.mem (s.thief i)).1 ∧ s'.owner = s.owner ∧
      s'.thief = Function.update s.thief i (thiefStep s.mem (s.thief i)).2.1 := by
  cases hpc : s.thief i <;> simp only [step, hpc, reduceCtorEq, Option.some.injEq] at hs <;>
    (subst hs; exact ⟨(by simp), rfl, rfl, rfl⟩)

omit [DecidableEq Thief] in
theorem thiefStep_index {m : Shared α} {pc : ThiefPc α} {t : ℤ}
    (h : (thiefStep m pc).2.1.index = some t) :
    (thiefStep m pc).1 = m ∧ (pc = .loadTop ∧ t = m.top ∨ pc.index = some t) := by
  cases pc with
  | loadTop => exact ⟨rfl, .inl ⟨rfl, (Option.some.inj h).symm⟩⟩
  | loadBot t' =>
    simp only [thiefStep] at h ⊢
    split_ifs at h ⊢
    · cases h
    · exact ⟨rfl, .inr h⟩
  | cas t' raw =>
    simp only [thiefStep] at h
    split_ifs at h <;> cases h
  | idle => cases h
  | _ => exact ⟨rfl, .inr h⟩

/-- The `steal` of thief `i` in progress has read `t` from `top_`, which has not moved since or
was moved by another call. -/
def Loaded (tr : List (State Thief α × Action Thief α)) (s : State Thief α) (i : Thief) (t : ℤ) :
    Prop :=
  ∃ pre u post, tr = pre ++ (u, .thief i) :: post ∧ u.thief i = .loadTop ∧
    (∀ e ∈ post, e.1.thief i ≠ .idle) ∧
      (s.mem.top = t ∨ ∃ e ∈ post, e.2 ≠ .thief i ∧ ∃ x, wins e.1 e.2 = some (some x))

omit [DecidableEq Thief] in
theorem Loaded.snoc {tr : List (State Thief α × Action Thief α)} {t : ℤ} (h : Loaded tr s i t)
    (hpc : s.thief i ≠ .idle) (htop : s'.mem.top = s.mem.top ∨
      a ≠ .thief i ∧ ∃ x, wins s a = some (some x)) : Loaded (tr ++ [(s, a)]) s' i t := by
  obtain ⟨pre, u, post, rfl, hu, hpost, hmoved⟩ := h
  refine ⟨pre, u, post ++ [(s, a)], by simp, hu, ?_, ?_⟩
  · intro e he
    rcases List.mem_append.mp he with he | he
    · exact hpost e he
    · rw [List.mem_singleton.mp he]
      exact hpc
  · rcases hmoved with hsame | ⟨e, he, hne, hwin⟩
    · rcases htop with htop | ⟨hne, hwin⟩
      · exact .inl (htop.trans hsame)
      · exact .inr ⟨(s, a), by simp, hne, hwin⟩
    · exact .inr ⟨e, List.mem_append_left _ he, hne, hwin⟩

theorem loaded_step {tr : List (State Thief α × Action Thief α)} (hinv : Inv s)
    (h : ∀ i t, (s.thief i).index = some t → Loaded tr s i t) (hs : step s a = some s') :
    ∀ i t, (s'.thief i).index = some t → Loaded (tr ++ [(s, a)]) s' i t := by
  intro i t hindex
  have hbusy : (s.thief i).index = some t → s.thief i ≠ .idle := fun he hpc => by
    rw [hpc] at he
    cases he
  by_cases hthief : a = .thief i
  · subst hthief
    obtain ⟨-, hmem, -, hth⟩ := thief_step_self hs
    rw [hth, Function.update_self] at hindex
    obtain ⟨hsame, hload | hold⟩ := thiefStep_index hindex
    · refine ⟨tr, s, [], rfl, hload.1, nofun, .inl ?_⟩
      rw [hmem, hsame, hload.2]
    · exact (h i t hold).snoc (hbusy hold) (.inl (by rw [hmem, hsame]))
  by_cases hsteal : a = .steal i
  · subst hsteal
    cases hpc : s.thief i <;> simp only [step, hpc, reduceCtorEq, Option.some.injEq] at hs
    have hload : s'.thief i = .loadTop := by
      rw [← hs]
      exact Function.update_self _ _ _
    rw [hload] at hindex
    cases hindex
  · rw [thief_step hs hsteal hthief] at hindex
    refine (h i t hindex).snoc (hbusy hindex) ?_
    rcases top_step hs with htop | ⟨raw, hwin⟩
    · exact .inl htop
    · obtain ⟨-, x, rfl⟩ := hinv.wins_live hwin
      exact .inr ⟨hthief, x, hwin⟩

theorem loaded_of_run {tr : List (State Thief α × Action Thief α)}
    (h : Run (machine Thief α) tr s) {t : ℤ} (hindex : (s.thief i).index = some t) :
    Loaded tr s i t := by
  have hall : Inv s ∧ ∀ i t, (s.thief i).index = some t → Loaded tr s i t := by
    refine Run.history (I := fun tr s => Inv s ∧
      ∀ i t, (s.thief i).index = some t → Loaded tr s i t) ⟨inv_init, nofun⟩ ?_ h
    rintro tr u a v ⟨hu, hl⟩ hs
    exact ⟨inv_step u a v hu hs, loaded_step hu hl hs⟩
  exact hall.2 i t hindex

/-- The pop that has lowered `bot_` to `top_` is in progress, and a `steal` begun after state `s`
cannot get past its load of `bot_`. -/
structure Contested (s : State Thief α) (seg : List (State Thief α × Action Thief α))
    (w : State Thief α) : Prop where
  inv : Inv w
  mem : w.mem = s.mem
  owner : w.owner.contests s.mem.bot
  thief : ∀ j, (s.thief j ≠ .idle ∧ ∀ e ∈ seg, e.1.thief j ≠ .idle) ∨ (w.thief j).late s.mem

omit [DecidableEq Thief] in
theorem Contested.start (h : Inv s) (ho : s.owner.contests s.mem.bot) : Contested s [] s := by
  refine ⟨h, rfl, ho, fun j => ?_⟩
  by_cases hpc : s.thief j = .idle
  · exact .inr (hpc ▸ trivial)
  · exact .inl ⟨hpc, nofun⟩

omit [DecidableEq Thief] in
theorem contests_step {m : Shared α} {pc : OwnerPc α} (htop : m.top = m.bot)
    (hpc : pc.contests m.bot) : (ownerStep m pc).2.2 = none ∧
      ((∃ b t raw, pc = .popCas b t raw ∧ m.top = t) ∨
        (ownerStep m pc).1 = m ∧ (ownerStep m pc).2.1.contests m.bot) := by
  cases pc with
  | popLoadTop b c =>
    obtain rfl : b = m.bot := hpc
    simp only [ownerStep, if_neg (not_lt.mpr htop.le), gt_iff_lt]
    exact ⟨trivial, .inr ⟨trivial, rfl, htop⟩⟩
  | popGet b c t =>
    obtain ⟨rfl, rfl⟩ := hpc
    simp only [ownerStep, lt_irrefl, if_false]
    exact ⟨trivial, .inr ⟨trivial, rfl, rfl⟩⟩
  | popCas b t raw =>
    obtain ⟨rfl, rfl⟩ := hpc
    simp only [ownerStep, if_pos htop]
    exact ⟨trivial, .inl ⟨_, _, raw, rfl, htop⟩⟩
  | _ => cases hpc

theorem Contested.step {w w' : State Thief α} {seg : List (State Thief α × Action Thief α)}
    (h : Contested s seg w) (htop : s.mem.top = s.mem.bot) (hs : Deque.step w a = some w')
    (hw : wins w a = none) : Contested s (seg ++ [(w, a)]) w' := by
  have htop' : w.mem.top = w.mem.bot := by rw [h.mem, htop]
  have hkeep : ∀ j, w'.thief j = w.thief j →
      (s.thief j ≠ .idle ∧ ∀ e ∈ seg ++ [(w, a)], e.1.thief j ≠ .idle) ∨
        (w'.thief j).late s.mem := by
    intro j hj
    rcases h.thief j with ⟨hsj, hseg⟩ | hlate
    · by_cases hpc : w.thief j = .idle
      · exact .inr (by rw [hj, hpc]; trivial)
      · refine .inl ⟨hsj, fun e he => ?_⟩
        rcases List.mem_append.mp he with he | he
        · exact hseg e he
        · rw [List.mem_singleton.mp he]
          exact hpc
    · exact .inr (hj ▸ hlate)
  have hinv := inv_step w a w' h.inv hs
  cases a with
  | push task =>
    have ho := h.owner
    cases hpc : w.owner <;> simp only [Deque.step, hpc, reduceCtorEq] at hs
    rw [hpc] at ho
    cases ho
  | pop =>
    have ho := h.owner
    cases hpc : w.owner <;> simp only [Deque.step, hpc, reduceCtorEq] at hs
    rw [hpc] at ho
    cases ho
  | owner =>
    have ho : w.owner.contests w.mem.bot := h.mem ▸ h.owner
    obtain ⟨-, ⟨b, t, raw, hpc, hwon⟩ | ⟨hmem, hpc⟩⟩ := contests_step htop' ho
    · simp [wins, hpc, hwon] at hw
    · have hw' : w'.mem = w.mem ∧ w'.owner = (ownerStep w.mem w.owner).2.1 ∧
          w'.thief = w.thief := by
        cases ho : w.owner <;> simp only [Deque.step, ho, reduceCtorEq, Option.some.injEq] at hs <;>
          (subst hs; rw [ho] at hmem; exact ⟨hmem, rfl, rfl⟩)
      refine ⟨hinv, hw'.1.trans h.mem, ?_, fun j => hkeep j (by rw [hw'.2.2])⟩
      rw [hw'.2.1, ← h.mem]
      exact hpc
  | steal i =>
    cases hpc : w.thief i <;> simp only [Deque.step, hpc, reduceCtorEq, Option.some.injEq] at hs
    subst hs
    refine ⟨hinv, h.mem, h.owner, fun j => ?_⟩
    by_cases hj : j = i
    · subst hj
      exact .inr (by simp [ThiefPc.late])
    · exact hkeep j (Function.update_of_ne hj _ _)
  | thief i =>
    obtain ⟨hidle, hmem, ho, hth⟩ := thief_step_self hs
    have hsame : (thiefStep w.mem (w.thief i)).1 = w.mem := by
      cases hpc : w.thief i with
      | cas t raw =>
        have hlost : w.mem.top ≠ t := fun he => by simp [wins, hpc, he] at hw
        simp only [thiefStep, if_neg hlost]
      | loadBot t =>
        simp only [thiefStep]
        split_ifs <;> rfl
      | _ => rfl
    refine ⟨hinv, (hmem.trans hsame).trans h.mem, ho ▸ h.owner, fun j => ?_⟩
    by_cases hj : j = i
    · subst hj
      rcases h.thief j with ⟨hsj, hseg⟩ | hlate
      · refine .inl ⟨hsj, fun e he => ?_⟩
        rcases List.mem_append.mp he with he | he
        · exact hseg e he
        · rw [List.mem_singleton.mp he]
          exact hidle
      · right
        rw [hth, Function.update_self]
        cases hpc : w.thief j with
        | idle => exact absurd hpc hidle
        | loadTop =>
          change s.mem.bot ≤ w.mem.top
          rw [h.mem, htop]
        | loadBot t =>
          rw [hpc] at hlate
          have hge : t ≥ w.mem.bot := by
            rw [h.mem]
            exact hlate
          simp only [thiefStep, if_pos hge]
          trivial
        | _ =>
          rw [hpc] at hlate
          cases hlate
    · exact hkeep j (by rw [hth, Function.update_of_ne hj])

theorem Contested.of_steps {w : State Thief α} {seg : List (State Thief α × Action Thief α)}
    (h : Inv s) (htop : s.mem.top = s.mem.bot) (ho : s.owner.contests s.mem.bot)
    (hseg : Steps (machine Thief α) s seg w) (hw : ∀ e ∈ seg, wins e.1 e.2 = none) :
    Contested s seg w := by
  induction hseg with
  | nil => exact .start h ho
  | snoc _ last ih =>
    exact (ih fun e he => hw e (List.mem_append_left _ he)).step htop last (hw (_, _) (by simp))

omit [DecidableEq Thief] in
/-- While nobody has taken the contested task, its pop has not returned, and whoever takes it is
that pop or a `steal` that has been in progress since `s`. -/
theorem Contested.taker {w : State Thief α} {seg : List (State Thief α × Action Thief α)} {x : α}
    (h : Contested s seg w) (htop : s.mem.top = s.mem.bot)
    (hx : s.mem.live.get s.mem.bot = some x) :
    (∀ a, popReturn w a = none) ∧ ∀ a r, wins w a = some r → r = some x ∧
      (a = .owner ∨
        ∃ j, a = .thief j ∧ s.thief j ≠ .idle ∧ ∀ e ∈ seg, e.1.thief j ≠ .idle) := by
  have htop' : w.mem.top = w.mem.bot := by rw [h.mem, htop]
  have ho : w.owner.contests w.mem.bot := h.mem ▸ h.owner
  refine ⟨fun a => ?_, fun a r hr => ⟨?_, ?_⟩⟩
  · cases a with
    | owner => exact (contests_step htop' ho).1
    | _ => rfl
  · rw [(h.inv.wins_live hr).1, h.mem, htop, hx]
  · cases a with
    | owner => exact .inl rfl
    | thief j =>
      rcases h.thief j with hj | hlate
      · exact .inr ⟨j, rfl, hj⟩
      · cases hpc : w.thief j <;> simp only [wins, hpc, reduceCtorEq] at hr
        rw [hpc] at hlate
        cases hlate
    | _ => cases hr

/-- The failures of the deque are truthful. When a pop returns null, all tasks pushed have been
returned. When `steal` loses its race, another call has obtained a task since its load of `top_`.
When it finds the deque empty, all tasks pushed have been taken, or all but the one at the index to
which a pop has lowered `bot_`: this pop does not return before the task has been taken, and only
it or a `steal` already in progress takes it. -/
theorem failures_truthful {tr : List (State Thief α × Action Thief α)}
    (h : Run (machine Thief α) tr s) :
    (∀ a, popReturn s a = some none → (log pushed tr : Multiset α) = log returned tr) ∧
      (∀ i, stealReturn s (.thief i) = some ⟨none, false⟩ →
        ∃ pre u post, tr = pre ++ (u, .thief i) :: post ∧ u.thief i = .loadTop ∧
          (∀ e ∈ post, e.1.thief i ≠ .idle) ∧
            ∃ e ∈ post, e.2 ≠ .thief i ∧ ∃ x, wins e.1 e.2 = some (some x)) ∧
      ∀ i, stealReturn s (.thief i) = some ⟨none, true⟩ →
        (log pushed tr : Multiset α) = taken tr s ∨
          ∃ x, (log pushed tr : Multiset α) = taken tr s + {x} ∧
            s.mem.live.get s.mem.bot = some x ∧ s.owner.contests s.mem.bot ∧
              ∀ seg w, Steps (machine Thief α) s seg w → (∀ e ∈ seg, wins e.1 e.2 = none) →
                (∀ a, popReturn w a = none) ∧ ∀ a r, wins w a = some r → r = some x ∧
                  (a = .owner ∨
                    ∃ j, a = .thief j ∧ s.thief j ≠ .idle ∧ ∀ e ∈ seg, e.1.thief j ≠ .idle) := by
  have hinv := inv_of_run h
  have hacc : (log pushed tr : Multiset α) = taken tr s + (contents s.mem s.owner : Multiset α) :=
    (deque_accounting h).trans (add_assoc _ _ _).symm
  refine ⟨fun a hr => ?_, fun i hr => ?_, fun i hr => ?_⟩
  · obtain ⟨hempty, hhand⟩ := hinv.null_pop hr
    rw [hacc, taken, hempty, hhand]
    simp
  · cases hpc : s.thief i with
    | cas t raw =>
      have hlost : s.mem.top ≠ t := by
        intro he
        have hwin : wins s (.thief i) = some raw := by simp only [wins, hpc, if_pos he]
        obtain ⟨-, x, rfl⟩ := hinv.wins_live hwin
        simp [stealReturn, hpc, thiefStep, he] at hr
      have hindex : (s.thief i).index = some t := by rw [hpc]; rfl
      obtain ⟨pre, u, post, htr, hu, hpost, hsame | hwin⟩ := loaded_of_run h hindex
      · exact absurd hsame hlost
      · exact ⟨pre, u, post, htr, hu, hpost, hwin⟩
    | loadBot t =>
      simp only [stealReturn, hpc, thiefStep] at hr
      split_ifs at hr
      cases hr
    | _ => simp [stealReturn, hpc, thiefStep] at hr
  · rcases hinv.empty_steal hr with hempty | ⟨x, hone, htop, hx, ho⟩
    · left
      rw [hacc, hempty]
      simp
    · refine .inr ⟨x, ?_, hx, ho, fun seg w hseg hw => ?_⟩
      · rw [hacc, hone, Multiset.coe_singleton]
      · exact (Contested.of_steps hinv htop ho hseg hw).taker htop hx

end Steps

/-- Two thieves race for one task. -/
def raceSchedule : List (Action (Fin 2) ℕ) :=
  List.flatten [[.push 7], List.replicate 5 .owner, [.steal 0, .steal 1],
    List.replicate 4 (.thief 1), List.replicate 5 (.thief 0)]

theorem failures_truthful_lost :
    ∃ s, exec (machine (Fin 2) ℕ) (machine (Fin 2) ℕ).init raceSchedule = some s ∧
      stealReturn s (.thief 1) = some ⟨none, false⟩ ∧
        ∃ e ∈ record (machine (Fin 2) ℕ) (machine (Fin 2) ℕ).init raceSchedule,
          e.2 ≠ .thief 1 ∧ ∃ x, wins e.1 e.2 = some (some x) := by
  have hen : (exec (machine (Fin 2) ℕ) (machine (Fin 2) ℕ).init raceSchedule).isSome := by decide
  obtain ⟨s, hs, hrun⟩ := exists_run hen
  have hr : stealReturn s (.thief 1) = some ⟨none, false⟩ := by
    cases hs
    rfl
  obtain ⟨pre, u, post, htr, -, -, e, he, hwin⟩ := (failures_truthful hrun).2.1 1 hr
  exact ⟨s, hs, hr, e, by rw [htr]; simp [he], hwin⟩

end TaskScheduler.Deque
