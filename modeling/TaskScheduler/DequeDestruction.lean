import TaskScheduler.DequeGrowth
import TaskScheduler.DequeRefinement

/-!
# Destruction of the Chase-Lev deque

What `~ChaseLevDeque` deletes and frees, when no call is in progress.
-/
namespace TaskScheduler.Deque
open Transition Segment DequeAbstract

variable {α Thief : Type*} {s s' : State Thief α} {a : Action Thief α}

/-- What the loop of the destructor deletes: the slots from `top_` up to `bot_`. -/
def deleted (m : Shared α) : List (Option α) :=
  (List.range (m.bot - m.top).toNat).map fun i : ℕ => m.live.get (m.top + i)

/-- The arrays that the destructor frees. -/
def freed (m : Shared α) : List ℕ := m.array :: m.oldArrays

/-- The array that a growth in progress has allocated and not yet made the live one. -/
def OwnerPc.fresh : OwnerPc α → Option ℕ
  | .growCopy _ _ _ next _ | .growKeep _ _ _ next | .growStore _ _ next => some next
  | _ => none

/-- Every array allocated so far is the live one, a retired one or that of a growth. -/
def Tracked (m : Shared α) (pc : OwnerPc α) : Prop :=
  ∀ b < m.allocated, Published m b ∨ pc.fresh = some b

theorem ownerStep_tracked {m : Shared α} {pc : OwnerPc α} (ho : OwnerOk m pc) (h : Tracked m pc) :
    Tracked (ownerStep m pc).1 (ownerStep m pc).2.1 := by
  have hkeep : ∀ {m' : Shared α} {pc' : OwnerPc α}, m'.allocated = m.allocated →
      m'.oldArrays = m.oldArrays → m'.array = m.array → pc'.fresh = pc.fresh →
      Tracked m' pc' := by
    intro m' pc' hall hold harr hpc b hb
    rw [hpc, Published, harr, hold]
    exact h b (hall ▸ hb)
  cases pc with
  | pushLoadArray task b t =>
    simp only [ownerStep]
    split_ifs
    · intro c hc
      rcases Nat.lt_succ_iff_lt_or_eq.mp hc with hlt | rfl
      · exact (h c hlt).imp_right fun hnone => by cases hnone
      · exact .inr rfl
    · exact hkeep rfl rfl rfl rfl
  | growKeep task b a next =>
    intro c hc
    rcases h c hc with (hlive | hold) | hfresh
    · exact .inl (.inl hlive)
    · exact .inl (.inr (List.mem_append_left _ hold))
    · exact .inr hfresh
  | growStore task b next =>
    obtain ⟨-, hmem, -⟩ := ho
    intro c hc
    rcases h c hc with (rfl | hold) | hfresh
    · exact .inl (.inr hmem)
    · exact .inl (.inr hold)
    · exact .inl (.inl (Option.some.inj hfresh).symm)
  | growCopy task b a next i =>
    simp only [ownerStep]
    split_ifs <;> exact hkeep rfl rfl rfl rfl
  | popLoadTop b a =>
    simp only [ownerStep]
    split_ifs <;> exact hkeep rfl rfl rfl rfl
  | popGet b a t =>
    simp only [ownerStep]
    split_ifs <;> exact hkeep rfl rfl rfl rfl
  | popCas b t raw =>
    simp only [ownerStep]
    split_ifs <;> exact hkeep rfl rfl rfl rfl
  | _ => exact hkeep rfl rfl rfl rfl

/-- With the owner idle the loop of the destructor goes through the contents of the deque. -/
theorem deleted_eq (h : Inv s) (ho : s.owner = .idle) :
    deleted s.mem = (abs s).items.map some := by
  have hbottom : bottom s.mem s.owner = s.mem.bot := by rw [ho]; rfl
  have hfill : Filled s.mem.live.get s.mem.top s.mem.bot := hbottom ▸ h.mem.filled
  change (List.range (s.mem.bot - s.mem.top).toNat).map (fun i : ℕ => s.mem.live.get (s.mem.top + i)) =
    (segment s.mem.live.get s.mem.top (bottom s.mem s.owner)).map some
  rw [hbottom, Segment.segment, List.map_filterMap, ← List.filterMap_eq_map]
  apply List.filterMap_congr
  intro i hi
  have hlt := List.mem_range.mp hi
  obtain ⟨x, hx⟩ := hfill (s.mem.top + i) (by omega) (by omega)
  simp [hx]

variable [DecidableEq Thief]

theorem tracked_step (h : Inv s) (ht : Tracked s.mem s.owner) (hs : step s a = some s') :
    Tracked s'.mem s'.owner := by
  rcases mem_step hs with ⟨hm, hpc⟩ | ⟨hidle, hm, hpc⟩ | ⟨hpc, t, hm⟩
  · rw [hm, hpc]
    exact ownerStep_tracked h.owner ht
  · intro b hb
    rw [hm] at hb ⊢
    exact .inl ((ht b hb).resolve_right fun hf => by rw [hidle] at hf; cases hf)
  · rw [hm, hpc]
    exact ht

theorem tracked_of_run {tr : List (State Thief α × Action Thief α)}
    (h : Run (machine Thief α) tr s) : Inv s ∧ Tracked s.mem s.owner := by
  refine Run.invariant (I := fun s => Inv s ∧ Tracked s.mem s.owner) ⟨inv_init, fun b hb => ?_⟩
    (fun u a v hu hs => ⟨inv_step u a v hu.1 hs, tracked_step hu.1 hu.2 hs⟩) h
  exact .inl (.inl (Nat.lt_one_iff.mp hb))

/-- With the owner idle the destructor frees every array that was ever allocated once. -/
theorem freed_perm {tr : List (State Thief α × Action Thief α)} (h : Run (machine Thief α) tr s)
    (ho : s.owner = .idle) : (freed s.mem).Perm (List.range s.mem.allocated) := by
  obtain ⟨hinv, htracked⟩ := tracked_of_run h
  have hretired := (growth_of_run h).retired
  have hlive : s.mem.array ∉ s.mem.oldArrays := by
    intro hmem
    have hret := hretired.live hmem
    rw [ho] at hret
    cases hret
  refine (List.perm_ext_iff_of_nodup (List.nodup_cons.mpr ⟨hlive, hretired.nodup⟩)
    List.nodup_range).mpr fun b => ?_
  rw [List.mem_range]
  refine List.mem_cons.trans ?_
  constructor
  · rintro (rfl | hold)
    · exact hinv.mem.array_lt
    · exact hinv.mem.old_lt b hold
  · intro hb
    exact (htracked b hb).resolve_right fun hf => by rw [ho] at hf; cases hf

/-- The destructor of a deque with no owner operation in progress deletes tasks only, every task
that was pushed and never handed to a caller once, and frees every array that was ever allocated
once. -/
theorem destroyed_once {tr : List (State Thief α × Action Thief α)}
    (h : Run (machine Thief α) tr s) (ho : s.owner = .idle) :
    ∃ tasks : List α, deleted s.mem = tasks.map some ∧
      (log pushed tr : Multiset α) = log returned tr + (tasks : Multiset α) ∧
      (freed s.mem).Perm (List.range s.mem.allocated) := by
  have hcall : (abs s).owner = .idle := by simp only [abs, ho, ownerCall]
  refine ⟨(abs s).items, deleted_eq (tracked_of_run h).1 ho, ?_, freed_perm h ho⟩
  rw [deque_accounting h, DoubleEnded.held, hcall]
  simp [Call.inHand]

/-- Two pushes and a steal. -/
def restSchedule : List (Action (Fin 2) ℕ) :=
  List.flatten [[.push 7], List.replicate 5 .owner, [.push 8], List.replicate 5 .owner,
    [.steal 1], List.replicate 5 (.thief 1)]

theorem destroyed_once_rest :
    ∃ s, exec (machine (Fin 2) ℕ) (machine (Fin 2) ℕ).init restSchedule = some s ∧
      ∃ tasks : List ℕ, deleted s.mem = tasks.map some ∧
        (log pushed (record (machine (Fin 2) ℕ) (machine (Fin 2) ℕ).init restSchedule) :
            Multiset ℕ) =
          log returned (record (machine (Fin 2) ℕ) (machine (Fin 2) ℕ).init restSchedule) +
            (tasks : Multiset ℕ) ∧
        (freed s.mem).Perm (List.range s.mem.allocated) := by
  have hen : (exec (machine (Fin 2) ℕ) (machine (Fin 2) ℕ).init restSchedule).isSome := by decide
  obtain ⟨s, hs, hrun⟩ := exists_run hen
  have ho : s.owner = .idle := by
    cases hs
    rfl
  exact ⟨s, hs, destroyed_once hrun ho⟩

end TaskScheduler.Deque
