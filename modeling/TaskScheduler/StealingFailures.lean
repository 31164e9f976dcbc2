import TaskScheduler.Driven
import TaskScheduler.StealingDequesInvariant

/-!
# A submit of WorkStealingScheduler that throws

The allocations inside `push_bottom` and `inject_queue_.push_back` may fail. What the exception
leaves behind: the containers as they were, and `pending_` counting a task that is not there.
-/
namespace TaskScheduler.Deque

variable {α Thief : Type*}

/-- An allocation of `push_bottom` fails: that of the larger array, or the one in
`old_arrays_.push_back`. The exception leaves the call. -/
def throw (d : State Thief α) : Option (State Thief α) :=
  match d.owner with
  | .pushLoadArray _ b t =>
    if b - t ≥ d.mem.live.capacity - 1 then some { d with owner := .idle } else none
  | .growKeep .. => some { d with owner := .idle }
  | _ => none

/-- The push has changed no word that another call reads. -/
def OwnerPc.early : OwnerPc α → Prop
  | .pushLoadBot _ | .pushLoadTop .. | .pushLoadArray .. | .growCopy .. | .growKeep .. => True
  | _ => False

/-- The push has no allocation ahead of it. -/
def OwnerPc.late : OwnerPc α → Prop
  | .growStore .. | .pushPut .. | .pushStoreBot .. => True
  | _ => False

/-- The words of the deque, its live array with its contents and the list of the old ones. -/
structure Untouched (m m' : Shared α) : Prop where
  top : m'.top = m.top
  bot : m'.bot = m.bot
  array : m'.array = m.array
  live : m'.live = m.live
  oldArrays : m'.oldArrays = m.oldArrays

/-- A push that its thread makes alone, from deque `d` on. -/
inductive Pushing (d : State Thief α) : State Thief α → Prop
  | start (hidle : d.owner = .idle) : Pushing d d
  | early {d' : State Thief α} (hidle : d.owner = .idle) (ht : d'.thief = d.thief)
      (hm : Untouched d.mem d'.mem) (he : d'.owner.early) : Pushing d d'
  | late {d' : State Thief α} (hl : d'.owner.late) : Pushing d d'

variable {d d' e : State Thief α}

theorem Untouched.trans {m m' m'' : Shared α} (h : Untouched m m') (h' : Untouched m' m'') :
    Untouched m m'' :=
  ⟨h'.top.trans h.top, h'.bot.trans h.bot, h'.array.trans h.array, h'.live.trans h.live,
    h'.oldArrays.trans h.oldArrays⟩

theorem ownerStep_early {m : Shared α} {pc : OwnerPc α} (hm : MemOk m (bottom m pc))
    (ho : OwnerOk m pc) (he : pc.early) :
    (Untouched m (ownerStep m pc).1 ∧ (ownerStep m pc).2.1.early) ∨ (ownerStep m pc).2.1.late := by
  cases pc with
  | pushLoadBot task => exact .inl ⟨⟨rfl, rfl, rfl, rfl, rfl⟩, trivial⟩
  | pushLoadTop task b => exact .inl ⟨⟨rfl, rfl, rfl, rfl, rfl⟩, trivial⟩
  | pushLoadArray task b t =>
    simp only [ownerStep]
    split_ifs
    · exact .inl ⟨⟨rfl, rfl, rfl, write_live_of_ne m _ hm.array_lt.ne, rfl⟩, trivial⟩
    · exact .inr trivial
  | growCopy task b a next i =>
    obtain ⟨-, -, hg, -, -⟩ := ho
    simp only [ownerStep]
    split_ifs
    · exact .inl ⟨⟨rfl, rfl, rfl, write_live_of_ne m _ fun h => hg.unpublished (.inl h.symm),
        rfl⟩, trivial⟩
    · exact .inl ⟨⟨rfl, rfl, rfl, rfl, rfl⟩, trivial⟩
  | growKeep task b a next => exact .inr trivial
  | _ => cases he

/-- A push that throws has been early until then. -/
theorem Pushing.throw (h : Pushing d d') (ht : Deque.throw d' = some e) :
    e.owner = d.owner ∧ e.thief = d.thief ∧ Untouched d.mem e.mem := by
  have he : e = { d' with owner := .idle } ∧ d'.owner.early := by
    cases hpc : d'.owner with
    | pushLoadArray task b t =>
      simp only [Deque.throw, hpc] at ht
      split_ifs at ht
      exact ⟨(Option.some.inj ht).symm, trivial⟩
    | growKeep task b a next =>
      simp only [Deque.throw, hpc] at ht
      exact ⟨(Option.some.inj ht).symm, trivial⟩
    | _ => simp [Deque.throw, hpc] at ht
  obtain ⟨rfl, hearly⟩ := he
  cases h with
  | start hidle =>
    rw [hidle] at hearly
    cases hearly
  | early hidle ht hm _ => exact ⟨hidle.symm, ht, hm⟩
  | late hl => cases hpc : d'.owner <;> simp_all [OwnerPc.early, OwnerPc.late]

theorem Inv.throw (h : Inv d) (ht : Deque.throw d = some d') : Inv d' ∧ d'.owner = .idle := by
  have hm := h.mem
  have hth := h.thief
  cases hpc : d.owner with
  | pushLoadArray task b t =>
    rw [hpc] at hm hth
    simp only [Deque.throw, hpc] at ht
    split_ifs at ht
    cases ht
    exact ⟨⟨hm, trivial, hth⟩, rfl⟩
  | growKeep task b a next =>
    rw [hpc] at hm hth
    simp only [Deque.throw, hpc] at ht
    cases ht
    exact ⟨⟨hm, trivial, hth⟩, rfl⟩
  | _ => simp [Deque.throw, hpc] at ht

end TaskScheduler.Deque

namespace TaskScheduler.StealingDeques
open Transition
open WorkStealing (SubmitPc WorkerPc RunPc asInt)

variable {ι α : Type*} {s s' u v w : State ι α} {d d' : Deque.State ℕ α} {t : Thread ι} {task : α}

/-- One access of a push by its own thread. -/
theorem pushing_step {last : Bool} (hd : Deque.Inv d') (h : Deque.Pushing d d')
    {e : Deque.State ℕ α} (hp : pushStep d' task = some (e, last)) :
    last = true ∨ Deque.Pushing d e := by
  have hstep : ∀ {pc : Deque.OwnerPc α}, d'.owner = pc → pc.early ∨ pc.late →
      e = { d' with mem := (Deque.ownerStep d'.mem pc).1, owner := (Deque.ownerStep d'.mem pc).2.1 } ∧
        last = (Deque.pushed d' .owner).isSome := by
    rintro pc rfl hpc
    cases ho : d'.owner <;> rw [ho] at hpc <;> simp only [Deque.OwnerPc.early, Deque.OwnerPc.late,
      or_self, or_false, false_or] at hpc <;> simp only [pushStep, Deque.step, ho,
        Option.map_some, Option.some.injEq, Prod.mk.injEq] at hp <;> exact ⟨hp.1.symm, hp.2.symm⟩
  cases h with
  | start hidle =>
    simp only [pushStep, Deque.step, hidle, Option.map_some, Option.some.injEq,
      Prod.mk.injEq] at hp
    obtain ⟨rfl, -⟩ := hp
    exact .inr (.early hidle rfl ⟨rfl, rfl, rfl, rfl, rfl⟩ trivial)
  | early hidle ht hm he =>
    obtain ⟨rfl, -⟩ := hstep rfl (.inl he)
    right
    rcases Deque.ownerStep_early hd.mem hd.owner he with ⟨hm', he'⟩ | hl
    · exact .early hidle ht (hm.trans hm') he'
    · exact .late hl
  | late hl =>
    obtain ⟨rfl, rfl⟩ := hstep rfl (.inr hl)
    cases hpc : d'.owner with
    | growStore task b next => exact .inr (.late trivial)
    | pushPut task b a => exact .inr (.late trivial)
    | pushStoreBot task b => exact .inl (by simp [Deque.pushed, hpc])
    | _ =>
      rw [hpc] at hl
      cases hl

variable [DecidableEq ι]

/-- An allocation of `submit` fails and the exception leaves the call: inside `push_bottom`, or in
`inject_queue_.push_back`, where it releases `inject_mu_`. A task that is running has caught it. -/
def throw (s : State ι α) (t : Thread ι) : Option (State ι α) :=
  match s.call t with
  | some (.pushLocal wid _) => (s.deque wid.toNat).bind fun d => (Deque.throw d).map fun d' =>
      (s.setDeque wid.toNat d').setCall t none
  | some (.pushInject _) => some ({ s with injectMu := false }.setCall t none)
  | _ => none

/-- The scheduler whose allocations may fail. -/
def failing (ι α : Type*) [DecidableEq ι] : Machine (State ι α) (Action ι α ⊕ Thread ι) :=
  (machine ι α).faulty throw

/-- The task of a `submit` that is left by an exception. -/
def failed (s : State ι α) (t : Thread ι) : Option α :=
  match s.call t with
  | some (.pushLocal _ task) | some (.pushInject task) => some task
  | _ => none

theorem Inv.throw (h : Inv s) (hs : StealingDeques.throw s t = some s') : Inv s' := by
  have hrun : ∀ {pc : SubmitPc α} {i : ℕ}, s.call t = some pc → t = .worker i →
      (s.worker i).isRunning := by
    rintro pc i hc rfl
    by_contra hr
    rw [h.quiet i (by simpa using hr)] at hc
    cases hc
  cases hc : s.call t with
  | none => simp [StealingDeques.throw, hc] at hs
  | some pc =>
    cases pc with
    | pushLocal wid task =>
      simp only [StealingDeques.throw, hc, Option.bind_eq_some_iff, Option.map_eq_some_iff] at hs
      obtain ⟨d, hd, d', ht, rfl⟩ := hs
      obtain ⟨hinv, hidle⟩ := (h.deque _ d hd).throw ht
      have hd' : Inv (s.setDeque wid.toNat d') :=
        h.setDeque hinv (fun hne => absurd hidle hne) fun _ _ _ => hidle
      obtain ⟨i, rfl, hwid, -⟩ := h.local_worker hc rfl
      refine hd'.setCall (fun j hj => hrun hc hj) nofun fun j _ _ hj _ => .inr fun e he => ?_
      cases hj
      rw [setDeque_deque, hwid, Function.update_self, Option.some.injEq] at he
      exact he ▸ hidle
    | pushInject task =>
      simp only [StealingDeques.throw, hc, Option.some.injEq] at hs
      subst hs
      refine Inv.setCall (s := { s with injectMu := false })
        ⟨h.small, h.off, h.quiet, h.route, h.deque, h.owned, h.drained⟩
        (fun j hj => hrun hc hj) nofun fun j wid task' _ hl => ?_
      have hl' : s.call t = some (.pushLocal wid task') := hl
      rw [hc] at hl'
      cases hl'
    | _ => simp [StealingDeques.throw, hc] at hs

theorem inv_of_failing {tr : List (State ι α × (Action ι α ⊕ Thread ι))}
    (h : Run (failing ι α) tr s) : Inv s := by
  refine Run.invariant (M := failing ι α) inv_init (fun u a v hu hs => ?_) h
  cases a with
  | inl a => exact inv_step u a v hu hs
  | inr t => exact hu.throw hs

section Alone

/-- A `submit` that its thread makes alone, from state `u` on. -/
inductive During (u : State ι α) (t : Thread ι) : State ι α → Prop
  | entry {pc : SubmitPc α} (hpc : (∃ task, pc = .check task) ∨ (∃ wid task, pc = .addLocal wid task) ∨
      ∃ task, pc = .lock task) : During u t (u.setCall t (some pc))
  | addInject (hmu : u.injectMu = false) (task : α) :
      During u t ({ u with injectMu := true }.setCall t (some (.addInject task)))
  | pushInject (hmu : u.injectMu = false) (task : α) :
      During u t ({ u with injectMu := true, pending := u.pending + 1 }.setCall t
        (some (.pushInject task)))
  | pushLocal (wid : ℤ) (task : α) (f : ℕ → Option (Deque.State ℕ α))
      (hne : ∀ i, i ≠ wid.toNat → f i = u.deque i)
      (hrel : Option.Rel Deque.Pushing (u.deque wid.toNat) (f wid.toNat)) :
      During u t ({ u with pending := u.pending + 1, deque := f }.setCall t
        (some (.pushLocal wid task)))
  | returned {w : State ι α} (hc : w.call t = none) : During u t w

/-- What the scheduler's containers, threads and locks are, whatever `pending_` is. -/
structure Kept (s v : State ι α) : Prop where
  injectMu : v.injectMu = s.injectMu
  injectQueue : v.injectQueue = s.injectQueue
  run : v.run = s.run
  worker : v.worker = s.worker
  call : v.call = s.call
  deque : ∀ i, Option.Rel (fun d d' : Deque.State ℕ α =>
    d'.owner = d.owner ∧ d'.thief = d.thief ∧ Deque.Untouched d.mem d'.mem) (s.deque i) (v.deque i)

theorem setCall_setCall (s : State ι α) (t : Thread ι) (c c' : Option (SubmitPc α)) :
    (s.setCall t c).setCall t c' = s.setCall t c' := by
  simp only [State.setCall, Function.update_idem]

theorem setCall_self (hc : s.call t = none) (c : Option (SubmitPc α)) :
    ((s.setCall t c).setCall t none).call = s.call := by
  rw [setCall_setCall, setCall_call, ← hc, Function.update_eq_self]

theorem During.step (h : During u t w) (hinv : Inv w) (hs : StealingDeques.step w (.call t) = some v) :
    During u t v := by
  cases h with
  | entry hpc =>
    simp only [StealingDeques.step, setCall_call, Function.update_self, Option.map_eq_some_iff,
      Prod.exists] at hs
    obtain ⟨m, rest, hm, rfl⟩ := hs
    rcases hpc with ⟨task, rfl⟩ | ⟨wid, task, rfl⟩ | ⟨task, rfl⟩
    · simp only [submitStep] at hm
      split_ifs at hm <;> cases hm <;> rw [setCall_setCall]
      · exact .entry (.inr (.inl ⟨_, task, rfl⟩))
      · exact .entry (.inr (.inr ⟨task, rfl⟩))
    · have hc : (u.setCall t (some (.addLocal wid task))).call t = some (.addLocal wid task) := by
        simp
      obtain ⟨i, rfl, hwid, hrun⟩ := hinv.local_worker hc rfl
      cases hm
      have hv := During.pushLocal (u := u) (t := .worker i) wid task u.deque (fun _ _ => rfl) ?_
      · exact setCall_setCall { u with pending := u.pending + 1 } (.worker i) _ _ ▸ hv
      · rw [hwid]
        cases hd : u.deque i with
        | none => exact .none
        | some d =>
          refine .some (.start (hinv.idle (i := i) (fun hpop => ?_) (fun wid' task' he => ?_)
            (fun _ => hinv.not_drain (i := i) fun hoff => ?_) hd))
          · rw [hpop] at hrun
            cases hrun
          · rw [hc] at he
            cases he
          · rw [hoff] at hrun
            cases hrun
    · simp only [submitStep] at hm
      split_ifs at hm with hmu
      cases hm
      have hfree : u.injectMu = false := by simpa using hmu
      exact setCall_setCall { u with injectMu := true } t _ _ ▸ .addInject hfree task
  | addInject hmu task =>
    simp only [StealingDeques.step, setCall_call, Function.update_self, submitStep,
      Option.map_some, Option.some.injEq] at hs
    subst hs
    exact setCall_setCall { u with injectMu := true, pending := u.pending + 1 } t _ _ ▸
      .pushInject hmu task
  | pushInject hmu task =>
    simp only [StealingDeques.step, setCall_call, Function.update_self, submitStep,
      Option.map_some, Option.some.injEq] at hs
    subst hs
    exact .returned (Function.update_self _ _ _)
  | pushLocal wid task f hne hrel =>
    simp only [StealingDeques.step, setCall_call, Function.update_self, submitStep,
      setCall_deque, Option.map_eq_some_iff, Option.bind_eq_some_iff, Prod.exists,
      Prod.mk.injEq] at hs
    obtain ⟨m, rest, ⟨d', hd', e, last, hpush, rfl, rfl⟩, rfl⟩ := hs
    cases last with
    | true => exact .returned (Function.update_self _ _ _)
    | false =>
      rw [hd'] at hrel
      obtain ⟨d, hd, hpushing⟩ : ∃ d, u.deque wid.toNat = some d ∧ Deque.Pushing d d' := by
        generalize u.deque wid.toNat = o at hrel
        cases hrel with
        | some hp => exact ⟨_, rfl, hp⟩
      have hnext := (pushing_step (hinv.deque wid.toNat d' hd') hpushing hpush).resolve_left (by simp)
      have hv := During.pushLocal (u := u) (t := t) wid task
        (Function.update f wid.toNat (some e))
        (fun i hi => (Function.update_of_ne hi _ _).trans (hne i hi)) (by
          rw [hd, Function.update_self]
          exact .some hnext)
      exact setCall_setCall { u with
        pending := u.pending + 1, deque := Function.update f wid.toNat (some e) } t _ _ ▸ hv
  | returned hc => simp [StealingDeques.step, hc] at hs

/-- An exception leaves everything as it was before the call but `pending_`. -/
theorem During.throw (h : During u t w) (hu : u.call t = none)
    (hs : StealingDeques.throw w t = some v) : v.pending = u.pending + 1 ∧ Kept u v := by
  have hsame : ∀ (o : Option (Deque.State ℕ α)), Option.Rel (fun d d' : Deque.State ℕ α =>
      d'.owner = d.owner ∧ d'.thief = d.thief ∧ Deque.Untouched d.mem d'.mem) o o := by
    intro o
    cases o with
    | none => exact .none
    | some d => exact .some ⟨rfl, rfl, rfl, rfl, rfl, rfl, rfl⟩
  cases h with
  | entry hpc =>
    rcases hpc with ⟨task, rfl⟩ | ⟨wid, task, rfl⟩ | ⟨task, rfl⟩ <;>
      simp [StealingDeques.throw] at hs
  | addInject hmu task => simp [StealingDeques.throw] at hs
  | pushInject hmu task =>
    simp only [StealingDeques.throw, setCall_call, Function.update_self, Option.some.injEq] at hs
    subst hs
    exact ⟨rfl, hmu.symm, rfl, rfl, rfl,
      setCall_self (s := { u with pending := u.pending + 1 }) hu _, fun i => hsame _⟩
  | pushLocal wid task f hne hrel =>
    simp only [StealingDeques.throw, setCall_call, Function.update_self, setCall_deque,
      Option.bind_eq_some_iff, Option.map_eq_some_iff] at hs
    obtain ⟨d', hd', e, he, rfl⟩ := hs
    refine ⟨rfl, rfl, rfl, rfl, rfl, setCall_self (s := { u with pending := u.pending + 1 }) hu _,
      fun i => ?_⟩
    rcases eq_or_ne i wid.toNat with rfl | hi
    · rw [hd'] at hrel
      rw [setCall_deque, setDeque_deque, Function.update_self]
      generalize u.deque wid.toNat = o at hrel
      cases hrel with
      | some hp => exact .some (hp.throw he)
    · rw [setCall_deque, setDeque_deque, Function.update_of_ne hi, setCall_deque]
      exact hne i hi ▸ hsame _
  | returned hc => simp [StealingDeques.throw, hc] at hs

/-- A `submit` that its thread makes alone and that an exception ends after `n` accesses. -/
def failedCall (t : Thread ι) (task : α) (n : ℕ) : List (Action ι α ⊕ Thread ι) :=
  .inl (.submit t task) :: (List.replicate n (.inl (.call t)) ++ [.inr t])

theorem failedCall_effect {n : ℕ} (h : Inv s)
    (hs : exec (failing ι α) s (failedCall t task n) = some v) :
    v.pending = s.pending + 1 ∧ Kept s v := by
  obtain ⟨u, tr, w, hu, htr, hown, hv⟩ := exec_call hs
  have hsubmit : StealingDeques.step s (.submit t task) = some u := hu
  have hfree : s.call t = none ∧ u = s.setCall t (some (.check task)) := by
    simp only [StealingDeques.step] at hsubmit
    split_ifs at hsubmit with hcan
    cases hsubmit
    exact ⟨by cases t <;> simp_all [canSubmit], rfl⟩
  have hw : Inv w ∧ During s t w := by
    refine Steps.invariant_of (C := fun _ a => a = .inl (.call t))
      (I := fun w => Inv w ∧ During s t w) ?_ htr hown ⟨h.submit hsubmit, ?_⟩
    · rintro x a y ⟨hx, hd⟩ rfl hs
      exact ⟨hx.call_step hs, hd.step hx hs⟩
    · rw [hfree.2]
      exact .entry (.inl ⟨task, rfl⟩)
  exact hw.2.throw hfree.1 hv

end Alone

section Accounting

theorem step_pending {a : Action ι α} (hs : step s a = some s') :
    s'.pending + (completed s a).toList.length = s.pending + (submitted s a).toList.length := by
  cases a with
  | submit t task =>
    simp only [step] at hs
    split_ifs at hs
    cases hs
    rfl
  | call t =>
    cases hc : s.call t with
    | none => simp [step, hc] at hs
    | some pc =>
      simp only [step, hc, Option.map_eq_some_iff, Prod.exists] at hs
      obtain ⟨m, rest, hm, rfl⟩ := hs
      cases pc with
      | check task =>
        simp only [submitStep] at hm
        split_ifs at hm <;> cases hm <;> simp [submitted, completed, hc]
      | pushLocal wid task =>
        simp only [submitStep, Option.bind_eq_some_iff, Option.map_eq_some_iff,
          Prod.mk.injEq] at hm
        obtain ⟨d, -, r, -, rfl, -⟩ := hm
        simp [submitted, completed, hc]
      | lock task =>
        simp only [submitStep] at hm
        split_ifs at hm
        cases hm
        simp [submitted, completed, hc]
      | _ =>
        cases hm
        simp [submitted, completed, hc]
  | worker i rng =>
    simp only [step, Option.map_eq_some_iff, Prod.exists] at hs
    obtain ⟨m, pc', hm, rfl⟩ := hs
    have hp : m.pending = s.pending := by
      cases hpc : s.worker i <;> simp only [hpc, workerStep, Option.bind_eq_some_iff,
        Option.map_eq_some_iff, Prod.mk.injEq, reduceCtorEq, Option.some.injEq] at hm
      case pop =>
        obtain ⟨d, -, r, -, rfl, -⟩ := hm
        rfl
      case steal start attempt =>
        split_ifs at hm
        · simp only [Option.bind_eq_some_iff, Option.map_eq_some_iff, Prod.mk.injEq] at hm
          obtain ⟨d, -, r, -, rfl, -⟩ := hm
          rfl
        · cases hm
          rfl
      all_goals rw [← hm.1]
    simp [hp, submitted, completed]
  | finish i =>
    cases hpc : s.worker i <;> simp only [step, hpc, reduceCtorEq] at hs
    cases hc : s.call (.worker i) <;> simp only [hc, reduceCtorEq, Option.some.injEq] at hs
    subst hs
    simp [submitted, completed, hpc]
  | run n =>
    cases hr : s.run <;> simp only [step, hr, reduceCtorEq] at hs
    split_ifs at hs
    cases hs
    rfl
  | runner =>
    have hp : s'.pending = s.pending := by
      simp only [step] at hs
      cases hr : s.run <;> simp only [hr, runStep, reduceCtorEq, Option.some.injEq] at hs
      case drain =>
        cases hq : s.injectQueue with
        | nil =>
          simp only [hq, Option.some.injEq] at hs
          rw [← hs]
        | cons task rest =>
          simp only [hq, Option.bind_eq_some_iff, Option.map_eq_some_iff] at hs
          obtain ⟨d, -, r, -, rfl⟩ := hs
          rfl
      case clear => rw [← hs]
      case resize => rw [← hs]
      case reset => rw [← hs]
      case setShutdown => rw [← hs]
      case clearEnd => rw [← hs]
      all_goals
        split_ifs at hs
        all_goals
          cases hs
          rfl
    simp [hp, submitted, completed]

/-- The tasks submitted so far whose `submit` has not failed and which have not been completed. -/
def unfinished (tr : List (State ι α × (Action ι α ⊕ Thread ι))) : ℤ :=
  (log (onStep submitted) tr).length - (log (onFault failed) tr).length -
    (log (onStep completed) tr).length

/-- Every failed `submit` stays counted in `pending_`. -/
theorem pending_eq {tr : List (State ι α × (Action ι α ⊕ Thread ι))}
    (h : Run (failing ι α) tr s) :
    s.pending = unfinished tr + (log (onFault failed) tr).length := by
  have hcount : s.pending =
      (log (onStep submitted) tr).length - (log (onStep completed) tr).length := by
    refine Run.history (M := failing ι α) (I := fun tr s => s.pending =
      (log (onStep submitted) tr).length - (log (onStep completed) tr).length) rfl ?_ h
    intro tr u a v hu hs
    simp only [log_snoc, List.length_append]
    cases a with
    | inl a =>
      have hp := step_pending (s := u) (a := a) hs
      simp only [onStep]
      push_cast
      omega
    | inr t =>
      have hp : v.pending = u.pending := by
        have hs' : throw u t = some v := hs
        cases hc : u.call t with
        | none => simp [throw, hc] at hs'
        | some pc =>
          cases pc with
          | pushLocal wid task =>
            simp only [throw, hc, Option.bind_eq_some_iff, Option.map_eq_some_iff] at hs'
            obtain ⟨d, -, d', -, rfl⟩ := hs'
            rfl
          | pushInject task =>
            simp only [throw, hc, Option.some.injEq] at hs'
            rw [← hs']
            rfl
          | _ => simp [throw, hc] at hs'
      simp only [onStep, Option.toList_none, List.length_nil, add_zero, hp]
      exact hu
  rw [hcount, unfinished]
  ring

end Accounting

end TaskScheduler.StealingDeques
