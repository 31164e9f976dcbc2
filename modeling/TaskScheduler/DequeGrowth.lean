import TaskScheduler.DequeInvariant

/-!
# Growth of the Chase-Lev deque

The live array and the retired ones under growth: what `put` can overwrite, what a thief still
reads in an array that has been replaced, and how large the live array becomes.
-/
namespace TaskScheduler.Deque
open Transition Segment

variable {α Thief : Type*} {s s' : State Thief α} {a : Action Thief α}

/-- The owner has put the live array into `old_arrays_` and not yet replaced it. -/
def OwnerPc.retires : OwnerPc α → Bool
  | .growStore .. => true
  | _ => false

/-- `old_arrays_` lists arrays that are distinct and, but for the moment before the replacement,
not live. -/
structure Retired (m : Shared α) (pc : OwnerPc α) : Prop where
  nodup : m.oldArrays.Nodup
  live : m.array ∈ m.oldArrays → pc.retires

/-- What `top_` and `bot_` are apart. -/
def Shared.spread (m : Shared α) : ℤ := m.bot - m.top

/-- A push that grows has read `bot_` and `top_` as far apart as the array is large; `D` lists
what they have been apart so far. -/
def GrownPc (D : List ℤ) (m : Shared α) : OwnerPc α → Prop
  | .pushLoadArray _ b t => ∃ d ∈ D, b - t ≤ d
  | .growCopy .. | .growKeep .. | .growStore .. => ∃ d ∈ D, m.live.capacity ≤ d + 1
  | _ => True

structure Grown (D : List ℤ) (m : Shared α) (pc : OwnerPc α) : Prop where
  capacity : m.live.capacity = 256 ∨ ∃ d ∈ D, m.live.capacity ≤ 2 * (d + 1)
  push : GrownPc D m pc

section Owner
variable {m : Shared α} {pc : OwnerPc α}

theorem ownerStep_retired (hm : MemOk m (bottom m pc)) (ho : OwnerOk m pc) (h : Retired m pc) :
    Retired (ownerStep m pc).1 (ownerStep m pc).2.1 := by
  have hkeep : ∀ {m' : Shared α} {pc' : OwnerPc α}, m'.oldArrays = m.oldArrays →
      m'.array = m.array → pc.retires = false → Retired m' pc' := by
    intro m' pc' hold harr hpc
    refine ⟨hold ▸ h.nodup, fun hmem => ?_⟩
    rw [hold, harr] at hmem
    rw [h.live hmem] at hpc
    cases hpc
  cases pc with
  | growKeep task b a next =>
    obtain ⟨-, rfl, -, -⟩ := ho
    have hnot : m.array ∉ m.oldArrays := fun hmem => by cases h.live hmem
    refine ⟨?_, fun _ => rfl⟩
    exact List.nodup_append.mpr ⟨h.nodup, List.nodup_singleton _, fun x hx y hy he => hnot (by
      rw [← List.mem_singleton.mp hy, ← he]
      exact hx)⟩
  | growStore task b next =>
    obtain ⟨-, -, hg, -⟩ := ho
    exact ⟨h.nodup, fun hmem => absurd (.inr hmem) hg.unpublished⟩
  | pushLoadArray task b t =>
    simp only [ownerStep]
    split_ifs <;> exact hkeep rfl rfl rfl
  | growCopy task b a next i =>
    simp only [ownerStep]
    split_ifs <;> exact hkeep rfl rfl rfl
  | popLoadTop b a =>
    simp only [ownerStep]
    split_ifs <;> exact hkeep rfl rfl rfl
  | popGet b a t =>
    simp only [ownerStep]
    split_ifs <;> exact hkeep rfl rfl rfl
  | popCas b t raw =>
    simp only [ownerStep]
    split_ifs <;> exact hkeep rfl rfl rfl
  | _ => exact hkeep rfl rfl rfl

theorem Grown.mono {D D' : List ℤ} {m' : Shared α} {pc' : OwnerPc α} (h : Grown D m pc)
    (hD : ∀ d ∈ D, d ∈ D') (hcap : m'.live.capacity = m.live.capacity)
    (hpc : GrownPc D' m' pc') : Grown D' m' pc' := by
  refine ⟨?_, hpc⟩
  rw [hcap]
  rcases h.capacity with h256 | ⟨d, hd, hle⟩
  · exact .inl h256
  · exact .inr ⟨d, hD d hd, hle⟩

/-- One access of the owner, after which what the ends are apart before it has been recorded. -/
theorem ownerStep_grown {D : List ℤ} (hm : MemOk m (bottom m pc)) (ho : OwnerOk m pc)
    (h : Grown D m pc) :
    Grown (D ++ [m.spread]) (ownerStep m pc).1 (ownerStep m pc).2.1 := by
  have hD : ∀ d ∈ D, d ∈ D ++ [m.spread] := fun d hd => List.mem_append_left _ hd
  have hpush := h.push
  have hkeep : ∀ {m' : Shared α} {pc' : OwnerPc α}, m'.live.capacity = m.live.capacity →
      GrownPc (D ++ [m.spread]) m' pc' → Grown (D ++ [m.spread]) m' pc' :=
    fun hcap hpc => h.mono hD hcap hpc
  cases pc with
  | pushLoadTop task b =>
    obtain rfl : b = m.bot := ho
    exact hkeep rfl ⟨m.spread, List.mem_append_right _ (List.mem_singleton_self _), le_rfl⟩
  | pushLoadArray task b t =>
    obtain ⟨d, hd, hle⟩ := hpush
    simp only [ownerStep]
    split_ifs with hfull
    · have hl := write_live_of_ne m (CircularArray.new ((m.heap m.array).log2Cap + 1))
        hm.array_lt.ne
      have hcap := congrArg CircularArray.capacity hl
      refine hkeep hcap ⟨d, hD d hd, hcap.le.trans ?_⟩
      have hfull' : m.live.capacity - 1 ≤ b - t := hfull
      omega
    · exact hkeep rfl trivial
  | growCopy task b a next i =>
    obtain ⟨-, -, hg, -, -⟩ := ho
    obtain ⟨d, hd, hle⟩ := hpush
    simp only [ownerStep]
    split_ifs with hi
    · have hcap := congrArg CircularArray.capacity
        (write_live_of_ne m ((m.heap next).put i ((m.heap a).get i))
          fun he => hg.unpublished (.inl he.symm))
      exact hkeep hcap ⟨d, hD d hd, hcap.le.trans hle⟩
    · exact hkeep rfl ⟨d, hD d hd, hle⟩
  | growKeep task b a next =>
    obtain ⟨d, hd, hle⟩ := hpush
    exact hkeep rfl ⟨d, hD d hd, hle⟩
  | growStore task b next =>
    obtain ⟨d, hd, hle⟩ := hpush
    obtain ⟨-, -, hg, -⟩ := ho
    have hdouble : (m.heap next).capacity = 2 * m.live.capacity :=
      CircularArray.capacity_succ hg.log2Cap
    refine ⟨.inr ⟨d, hD d hd, ?_⟩, trivial⟩
    change (m.heap next).capacity ≤ 2 * (d + 1)
    omega
  | pushPut task b a =>
    obtain ⟨-, rfl, -⟩ := ho
    refine hkeep ?_ trivial
    exact (congrArg CircularArray.capacity (write_live_self m (m.live.put b (some task)))).trans
      (CircularArray.put_capacity _ _ _)
  | popLoadTop b a =>
    simp only [ownerStep]
    split_ifs <;> exact hkeep rfl trivial
  | popGet b a t =>
    simp only [ownerStep]
    split_ifs <;> exact hkeep rfl trivial
  | popCas b t raw =>
    simp only [ownerStep]
    split_ifs <;> exact hkeep rfl trivial
  | _ => exact hkeep rfl trivial

end Owner

section Steps
variable [DecidableEq Thief]

/-- Every step gives the thieves what they rely on. -/
theorem rely_step (h : Inv s) (hs : step s a = some s') :
    Rely s.mem s'.mem (bottom s.mem s.owner) (bottom s'.mem s'.owner) := by
  cases a with
  | push task =>
    cases hpc : s.owner <;> simp only [step, hpc, reduceCtorEq, Option.some.injEq] at hs
    subst hs
    exact Rely.refl _ id
  | pop =>
    cases hpc : s.owner <;> simp only [step, hpc, reduceCtorEq, Option.some.injEq] at hs
    subst hs
    exact Rely.refl _ id
  | owner =>
    have hk := (ownerStep_keeps h.mem h.owner).rely
    cases hpc : s.owner <;> simp only [step, hpc, reduceCtorEq, Option.some.injEq] at hs <;>
      (subst hs; rw [hpc] at hk; exact hk)
  | steal i =>
    cases hpc : s.thief i <;> simp only [step, hpc, reduceCtorEq, Option.some.injEq] at hs
    subst hs
    exact Rely.refl _ id
  | thief i =>
    have hk := (thiefStep_keeps h.mem h.owner (h.thief i)).1.rely
    cases hpc : s.thief i <;> simp only [step, hpc, reduceCtorEq, Option.some.injEq] at hs <;>
      (subst hs; rw [hpc] at hk; exact hk)

omit [DecidableEq Thief] in
theorem thiefStep_mem (m : Shared α) (pc : ThiefPc α) :
    ∃ t, (thiefStep m pc).1 = { m with top := t } := by
  cases pc with
  | cas t raw =>
    simp only [thiefStep]
    split_ifs
    · exact ⟨t + 1, rfl⟩
    · exact ⟨m.top, rfl⟩
  | loadBot t =>
    simp only [thiefStep]
    split_ifs <;> exact ⟨m.top, rfl⟩
  | _ => exact ⟨m.top, rfl⟩

/-- A step is an access of the owner, the beginning of one of its calls, or moves `top_` alone. -/
theorem mem_step (hs : step s a = some s') :
    (s'.mem = (ownerStep s.mem s.owner).1 ∧ s'.owner = (ownerStep s.mem s.owner).2.1) ∨
      (s.owner = .idle ∧ s'.mem = s.mem ∧
        ((∃ task, s'.owner = .pushLoadBot task) ∨ s'.owner = .popLoadBot)) ∨
      s'.owner = s.owner ∧ ∃ t, s'.mem = { s.mem with top := t } := by
  cases a with
  | push task =>
    cases hpc : s.owner <;> simp only [step, hpc, reduceCtorEq, Option.some.injEq] at hs
    subst hs
    exact .inr (.inl ⟨rfl, rfl, .inl ⟨task, rfl⟩⟩)
  | pop =>
    cases hpc : s.owner <;> simp only [step, hpc, reduceCtorEq, Option.some.injEq] at hs
    subst hs
    exact .inr (.inl ⟨rfl, rfl, .inr rfl⟩)
  | owner =>
    left
    cases hpc : s.owner <;> simp only [step, hpc, reduceCtorEq, Option.some.injEq] at hs <;>
      (subst hs; exact ⟨rfl, rfl⟩)
  | steal i =>
    cases hpc : s.thief i <;> simp only [step, hpc, reduceCtorEq, Option.some.injEq] at hs
    subst hs
    exact .inr (.inr ⟨rfl, s.mem.top, rfl⟩)
  | thief i =>
    have hm := thiefStep_mem s.mem (s.thief i)
    cases hpc : s.thief i <;> simp only [step, hpc, reduceCtorEq, Option.some.injEq] at hs <;>
      (subst hs; rw [hpc] at hm; exact .inr (.inr ⟨rfl, hm⟩))

def spreads (tr : List (State Thief α × Action Thief α)) : List ℤ :=
  tr.map fun e => e.1.mem.spread

/-- What holds of the arrays along a run. -/
structure Growth (tr : List (State Thief α × Action Thief α)) (s : State Thief α) : Prop where
  inv : Inv s
  retired : Retired s.mem s.owner
  grown : Grown (spreads tr) s.mem s.owner

theorem Growth.step {tr : List (State Thief α × Action Thief α)} (h : Growth tr s)
    (hs : step s a = some s') : Growth (tr ++ [(s, a)]) s' := by
  have hD : spreads (tr ++ [(s, a)]) = spreads tr ++ [s.mem.spread] := by simp [spreads]
  have hmono : ∀ d ∈ spreads tr, d ∈ spreads tr ++ [s.mem.spread] :=
    fun d hd => List.mem_append_left _ hd
  refine ⟨inv_step s a s' h.inv hs, ?_, hD ▸ ?_⟩
  · rcases mem_step hs with ⟨hm, hpc⟩ | ⟨hidle, hm, hpc⟩ | ⟨hpc, t, hm⟩
    · rw [hm, hpc]
      exact ownerStep_retired h.inv.mem h.inv.owner h.retired
    · rw [hm]
      refine ⟨h.retired.nodup, fun hmem => ?_⟩
      have hret := h.retired.live hmem
      rw [hidle] at hret
      cases hret
    · rw [hm, hpc]
      exact ⟨h.retired.nodup, h.retired.live⟩
  · rcases mem_step hs with ⟨hm, hpc⟩ | ⟨hidle, hm, hpc⟩ | ⟨hpc, t, hm⟩
    · rw [hm, hpc]
      exact ownerStep_grown h.inv.mem h.inv.owner h.grown
    · rw [hm]
      refine h.grown.mono hmono rfl ?_
      rcases hpc with ⟨task, hpc⟩ | hpc <;> rw [hpc] <;> trivial
    · rw [hm, hpc]
      refine h.grown.mono hmono rfl ?_
      have hpush := h.grown.push
      cases ho : s.owner <;> rw [ho] at hpush <;> try trivial
      all_goals
        obtain ⟨d, hd, hle⟩ := hpush
        exact ⟨d, hmono d hd, hle⟩

theorem growth_of_run {tr : List (State Thief α × Action Thief α)}
    (h : Run (machine Thief α) tr s) : Growth tr s := by
  refine Run.history (I := Growth) ⟨inv_init, ⟨List.nodup_nil, fun hmem => by cases hmem⟩,
    .inl ?_, trivial⟩ (fun tr u a v hu hs => hu.step hs) h
  norm_num [machine, initShared, Shared.live, CircularArray.new, CircularArray.capacity,
    kInitialLog2Cap]

/-- The `steal` of thief `i` with index `t` is in progress and has loaded array `b`. -/
def Holds (tr : List (State Thief α × Action Thief α)) (s : State Thief α) (i : Thief) (t : ℤ)
    (b : ℕ) : Prop :=
  ∃ pre u post, tr = pre ++ (u, .thief i) :: post ∧ u.thief i = .loadArray t ∧ u.mem.array = b ∧
    (∀ e ∈ post, e.1.thief i ≠ .idle) ∧ s.thief i ≠ .idle

/-- What a thief relies on of the array that it has loaded. -/
theorem Holds.thiefOk {tr : List (State Thief α × Action Thief α)} {i : Thief} {t : ℤ} {b : ℕ}
    (h : Run (machine Thief α) tr s) (hb : Holds tr s i t b) :
    ThiefOk s.mem (bottom s.mem s.owner) (.get t b) := by
  obtain ⟨pre, u, post, rfl, hpc, rfl, -, -⟩ := hb
  obtain ⟨hpre, v, hlast, hpost⟩ := Steps.split_at h
  have hv : step u (.thief i) = some v := hlast
  have hstart : Inv v ∧ ThiefOk v.mem (bottom v.mem v.owner) (.get t u.mem.array) := by
    have hinv := inv_step u _ v (inv_of_run hpre) hv
    have hthief : v.thief i = .get t u.mem.array := by
      simp only [step, hpc, Option.some.injEq] at hv
      rw [← hv]
      exact Function.update_self _ _ _
    exact ⟨hinv, hthief ▸ hinv.thief i⟩
  refine (Steps.invariant (I := fun w => Inv w ∧
    ThiefOk w.mem (bottom w.mem w.owner) (.get t u.mem.array)) ?_ hpost hstart).2
  rintro w a x ⟨hw, hok⟩ hs
  exact ⟨inv_step w a x hw hs, hok.mono (rely_step hw hs)⟩

/-- The growth protocol, in every state reached: the deque fits into the live array, `put`
overwrites no slot of it in use, the arrays retired are distinct, an array that a thief has loaded
is the live one or retired and holds the thief's task as long as it can still be stolen, and the
live array has its first size or at most twice what the deque has needed. -/
theorem growth_protocol {tr : List (State Thief α × Action Thief α)}
    (h : Run (machine Thief α) tr s) :
    s.mem.bot - s.mem.top ≤ s.mem.live.capacity - 1 ∧
      (∀ task b c, s.owner = .pushPut task b c → c = s.mem.array ∧
        ∀ j, s.mem.top ≤ j → j < s.mem.bot → s.mem.live.slot j ≠ s.mem.live.slot b) ∧
      s.mem.oldArrays.Nodup ∧ (s.mem.array ∈ s.mem.oldArrays → s.owner.retires) ∧
      (∀ i t b, Holds tr s i t b → (b = s.mem.array ∨ b ∈ s.mem.oldArrays) ∧
        (s.mem.top = t → ∃ x, (s.mem.heap b).get t = some x ∧ s.mem.live.get t = some x)) ∧
      (s.mem.live.capacity = 256 ∨
        ∃ e ∈ tr, s.mem.live.capacity ≤ 2 * (e.1.mem.bot - e.1.mem.top + 1)) := by
  have hg := growth_of_run h
  have hm := hg.inv.mem
  refine ⟨?_, fun task b c hpc => ?_, hg.retired.nodup, hg.retired.live,
    fun i t b hb => ?_, ?_⟩
  · have hroom := hm.room
    have hle := bot_le_bottom s.mem s.owner
    omega
  · have ho := hg.inv.owner
    rw [hpc] at ho
    obtain ⟨rfl, rfl, hroom⟩ := ho
    exact ⟨rfl, fun j h1 h2 => CircularArray.slot_ne h2 (by omega)⟩
  · obtain ⟨-, hp, hk⟩ := hb.thiefOk h
    refine ⟨hp, fun ht => ?_⟩
    obtain ⟨hlt, he⟩ := hk ht
    obtain ⟨x, hx⟩ := hm.filled t ht.le hlt
    exact ⟨x, he.trans hx, hx⟩
  · rcases hg.grown.capacity with h256 | ⟨d, hd, hle⟩
    · exact .inl h256
    · obtain ⟨e, he, rfl⟩ := List.mem_map.mp hd
      exact .inr ⟨e, he, hle⟩

end Steps

section Retire
variable {s : State (Fin 2) ℕ} {n : ℕ}

/-- The owner has pushed `n` tasks into the first array. -/
structure Stocked (n : ℕ) (s : State (Fin 2) ℕ) : Prop where
  owner : s.owner = .idle
  top : s.mem.top = 0
  bot : s.mem.bot = n
  array : s.mem.array = 0
  log2Cap : (s.mem.heap 0).log2Cap = 8
  allocated : s.mem.allocated = 1
  oldArrays : s.mem.oldArrays = []

def pushOne : List (Action (Fin 2) ℕ) := .push 7 :: List.replicate 5 .owner

theorem Stocked.next (h : Stocked n s) (hn : n < 255) :
    ∃ s', exec (machine (Fin 2) ℕ) s pushOne = some s' ∧ Stocked (n + 1) s' ∧
      s'.thief = s.thief := by
  have hroom : ¬ 256 ≤ (n : ℤ) + 1 := by omega
  refine ⟨_, by simp [exec, pushOne, machine, step, ownerStep, h.owner, h.top, h.bot, h.array,
    CircularArray.capacity, h.log2Cap, hroom, List.replicate]; rfl, ?_⟩
  exact ⟨⟨rfl, rfl, by simp, rfl, by simp [h.log2Cap], h.allocated, h.oldArrays⟩, rfl⟩

theorem exists_stocked : ∀ n ≤ 255, ∃ tr s, Run (machine (Fin 2) ℕ) tr s ∧ Stocked n s ∧
    s.thief 1 = .idle := by
  intro n
  induction n with
  | zero => exact fun _ => ⟨[], _, .nil, ⟨rfl, rfl, rfl, rfl, rfl, rfl, rfl⟩, rfl⟩
  | succ n ih =>
    intro hn
    obtain ⟨tr, s, hrun, h, hthief⟩ := ih (by omega)
    obtain ⟨s', hs, h', hkeep⟩ := h.next hn
    exact ⟨_, s', hrun.append (exec_steps hs), h', hkeep ▸ hthief⟩

/-- The owner copies the tasks that are left. -/
theorem exists_copied {task : ℕ} {b : ℤ} {a next : ℕ} (k : ℕ) :
    ∀ {s : State (Fin 2) ℕ}, s.owner = .growCopy task b a next (b - k) →
      ∃ post s', Steps (machine (Fin 2) ℕ) s post s' ∧ s'.owner = .growCopy task b a next b ∧
        s'.mem.top = s.mem.top ∧ s'.mem.oldArrays = s.mem.oldArrays ∧ ∀ e ∈ post, e.2 = .owner := by
  induction k with
  | zero =>
    intro s hs
    exact ⟨[], s, .nil, by simpa using hs, rfl, rfl, by simp⟩
  | succ k ih =>
    intro s hs
    have hlt : b - (k + 1 : ℕ) < b := by omega
    have hnext : b - (k + 1 : ℕ) + 1 = b - k := by push_cast; ring
    let u : State (Fin 2) ℕ :=
      { s with
        mem := s.mem.write next ((s.mem.heap next).put (b - (k + 1 : ℕ))
          ((s.mem.heap a).get (b - (k + 1 : ℕ))))
        owner := .growCopy task b a next (b - k) }
    have hstep : (machine (Fin 2) ℕ).step s .owner = some u := by
      simp only [machine, step, hs, ownerStep, if_pos hlt, hnext, u]
    obtain ⟨post, s', hpost, howner, htop, hold, hall⟩ := ih (s := u) rfl
    refine ⟨(s, .owner) :: post, s', (Steps.one hstep).append hpost, howner, htop, hold,
      fun e he => ?_⟩
    rcases List.mem_cons.mp he with rfl | he
    · rfl
    · exact hall e he

/-- The owner leaves the thieves where they are. -/
theorem thief_of_owner {s' : State (Fin 2) ℕ} {post : List (State (Fin 2) ℕ × Action (Fin 2) ℕ)}
    (h : Steps (machine (Fin 2) ℕ) s post s') (hown : ∀ e ∈ post, e.2 = .push 7 ∨ e.2 = .owner) :
    s'.thief = s.thief ∧ ∀ e ∈ post, e.1.thief = s.thief := by
  induction h with
  | nil => simp
  | @snoc post u v a prior last ih =>
    obtain ⟨hu, hall⟩ := ih fun e he => hown e (List.mem_append_left _ he)
    have hv : v.thief = u.thief := by
      rcases hown (u, a) (by simp) with rfl | rfl
      · cases hpc : u.owner <;>
          simp only [machine, step, hpc, reduceCtorEq, Option.some.injEq] at last
        rw [← last]
      · cases hpc : u.owner <;>
          simp only [machine, step, hpc, reduceCtorEq, Option.some.injEq] at last <;>
          rw [← last]
    refine ⟨hv.trans hu, fun e he => ?_⟩
    rcases List.mem_append.mp he with he | he
    · exact hall e he
    · rw [List.mem_singleton.mp he]
      exact hu

/-- The push of the next task grows the deque and retires its array. -/
theorem Stocked.retire (h : Stocked 255 s) : ∃ post s',
    Steps (machine (Fin 2) ℕ) s post s' ∧ s'.mem.array = 1 ∧ s'.mem.oldArrays = [0] ∧
      s'.mem.top = 0 ∧ ∀ e ∈ post, e.2 = .push 7 ∨ e.2 = .owner := by
  obtain ⟨u, hu, howner, htop, hold⟩ : ∃ u,
      exec (machine (Fin 2) ℕ) s (.push 7 :: List.replicate 3 .owner) = some u ∧
        u.owner = .growCopy 7 255 0 1 (255 - (255 : ℕ)) ∧ u.mem.top = 0 ∧ u.mem.oldArrays = [] := by
    refine ⟨_, by simp [exec, machine, step, ownerStep, h.owner, h.top, h.bot, h.array,
      CircularArray.capacity, h.log2Cap, h.allocated, List.replicate]; rfl, ?_⟩
    exact ⟨rfl, rfl, h.oldArrays⟩
  obtain ⟨post, v, hpost, hv, htop', hold', hall⟩ := exists_copied 255 howner
  obtain ⟨w, hw, harray, hretired, htop''⟩ : ∃ w,
      exec (machine (Fin 2) ℕ) v (List.replicate 3 .owner) = some w ∧ w.mem.array = 1 ∧
        w.mem.oldArrays = [0] ∧ w.mem.top = 0 := by
    refine ⟨_, by simp [exec, machine, step, ownerStep, hv, List.replicate]; rfl, rfl, ?_, ?_⟩
    · simp [hold', hold]
    · exact htop'.trans htop
  refine ⟨_, w, ((exec_steps hu).append hpost).append (exec_steps hw), harray, hretired, htop'',
    fun e he => ?_⟩
  rcases List.mem_append.mp he with he | he
  · rcases List.mem_append.mp he with he | he
    · have hact := mem_of_mem_record he
      simpa [List.replicate] using hact
    · exact .inr (hall e he)
  · exact .inr (List.eq_of_mem_replicate (mem_of_mem_record he))

/-- A thief that holds the array that the owner has retired. -/
theorem growth_protocol_retired : ∃ tr s, Run (machine (Fin 2) ℕ) tr s ∧ Holds tr s 1 0 0 ∧
    s.mem.oldArrays = [0] ∧ s.mem.array = 1 ∧
    ∃ x, (s.mem.heap 0).get 0 = some x ∧ s.mem.live.get 0 = some x := by
  obtain ⟨pre, s₀, hpre, h, hidle⟩ := exists_stocked 255 le_rfl
  obtain ⟨s₁, hs₁, hload, hmem, howner⟩ : ∃ s₁,
      exec (machine (Fin 2) ℕ) s₀ [.steal 1, .thief 1, .thief 1] = some s₁ ∧
        s₁.thief 1 = .loadArray 0 ∧ s₁.mem = s₀.mem ∧ s₁.owner = .idle := by
    refine ⟨_, by simp [exec, machine, step, thiefStep, hidle, h.top, h.bot]; rfl, ?_⟩
    exact ⟨by simp, rfl, h.owner⟩
  let s₂ : State (Fin 2) ℕ := { s₁ with thief := Function.update s₁.thief 1 (.get 0 0) }
  have hs₂ : (machine (Fin 2) ℕ).step s₁ (.thief 1) = some s₂ := by
    simp [machine, step, thiefStep, hload, hmem, h.array, s₂]
  have hstocked : Stocked 255 s₂ :=
    ⟨howner, hmem ▸ h.top, hmem ▸ h.bot, hmem ▸ h.array, hmem ▸ h.log2Cap, hmem ▸ h.allocated,
      hmem ▸ h.oldArrays⟩
  obtain ⟨post, s, hpost, harray, hretired, htop, hact⟩ := hstocked.retire
  obtain ⟨hthief, hall⟩ := thief_of_owner hpost hact
  have hget : s₂.thief 1 = .get 0 0 := by simp [s₂]
  have hrun : Run (machine (Fin 2) ℕ) (pre ++ record (machine (Fin 2) ℕ) s₀
      [.steal 1, .thief 1, .thief 1] ++ (s₁, .thief 1) :: post) s := by
    simpa [Run] using ((hpre.append (exec_steps hs₁)).snoc hs₂).append hpost
  have hhold : Holds (pre ++ record (machine (Fin 2) ℕ) s₀ [.steal 1, .thief 1, .thief 1] ++
      (s₁, .thief 1) :: post) s 1 0 0 := by
    refine ⟨_, s₁, post, rfl, hload, hmem ▸ h.array, fun e he => ?_, ?_⟩
    · simp [hall e he, hget]
    · simp [hthief, hget]
  exact ⟨_, s, hrun, hhold, hretired, harray, ((growth_protocol hrun).2.2.2.2.1 1 0 0 hhold).2 htop⟩

end Retire

end TaskScheduler.Deque
