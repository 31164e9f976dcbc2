import TaskScheduler.DequeInvariant
import TaskScheduler.StealingDeques
import TaskScheduler.StealingOwnership

/-!
# The deques of WorkStealingScheduler in a run

Every deque satisfies its own invariant, and a call of an owner operation in it is one of its
worker, or of `run` before the workers are launched.
-/
namespace TaskScheduler.StealingDeques
open Transition
open WorkStealing (SubmitPc WorkerPc RunPc asInt u32 sweepStart victim asInt_toNat)

variable {ι α : Type*} {s s' : State ι α} {d d' : Deque.State ℕ α} {i : ℕ} {t : Thread ι}

section Access

theorem pushStep_spec {task : α} {last : Bool} (h : pushStep d task = some (d', last)) :
    (∃ a, Deque.step d a = some d') ∧ (last → d'.owner = .idle) := by
  cases hpc : d.owner with
  | idle =>
    simp only [pushStep, hpc, Option.map_eq_some_iff, Prod.mk.injEq] at h
    obtain ⟨_, hs, rfl, rfl⟩ := h
    exact ⟨⟨_, hs⟩, nofun⟩
  | pushStoreBot task' b =>
    simp only [pushStep, hpc, Option.map_eq_some_iff, Prod.mk.injEq] at h
    obtain ⟨_, hs, rfl, rfl⟩ := h
    refine ⟨⟨_, hs⟩, fun _ => ?_⟩
    simp only [Deque.step, hpc, Option.some.injEq] at hs
    rw [← hs]
    rfl
  | _ =>
    simp only [pushStep, hpc, Option.map_eq_some_iff, Prod.mk.injEq] at h
    obtain ⟨_, hs, rfl, rfl⟩ := h
    exact ⟨⟨_, hs⟩, fun hl => by simp [Deque.pushed, hpc] at hl⟩

/-- The owner is idle once a pop has returned. -/
theorem idle_of_popReturn {r : Option α} (hr : Deque.popReturn d .owner = some r)
    (hs : Deque.step d .owner = some d') : d'.owner = .idle := by
  have hstep : d'.owner = (Deque.ownerStep d.mem d.owner).2.1 := by
    cases hpc : d.owner <;> simp only [Deque.step, hpc, reduceCtorEq, Option.some.injEq] at hs <;>
      rw [← hs]
  rw [hstep]
  simp only [Deque.popReturn] at hr
  cases hpc : d.owner with
  | popGet b a t =>
    simp only [hpc, Deque.ownerStep] at hr ⊢
    split_ifs at hr ⊢
    rfl
  | popRestoreBot b => rfl
  | popRaiseBot b won raw => rfl
  | idle => rfl
  | pushLoadArray task b t =>
    simp only [hpc, Deque.ownerStep] at hr
    split_ifs at hr
  | growCopy task b a next j =>
    simp only [hpc, Deque.ownerStep] at hr
    split_ifs at hr
  | popLoadTop b a =>
    simp only [hpc, Deque.ownerStep] at hr
    split_ifs at hr
  | popCas b t raw =>
    simp only [hpc, Deque.ownerStep] at hr
    split_ifs at hr
  | _ =>
    rw [hpc] at hr
    cases hr

theorem popStep_spec {r : Option (Option α)} (h : popStep d = some (d', r)) :
    (∃ a, Deque.step d a = some d') ∧ (r ≠ none → d'.owner = .idle) := by
  by_cases hidle : d.owner = .idle
  · simp only [popStep, hidle, Option.map_eq_some_iff, Prod.mk.injEq] at h
    obtain ⟨_, hs, rfl, rfl⟩ := h
    exact ⟨⟨_, hs⟩, fun hne => absurd rfl hne⟩
  · have h' : ∃ u, Deque.step d .owner = some u ∧ u = d' ∧ Deque.popReturn d .owner = r := by
      cases hpc : d.owner <;> simp only [popStep, hpc, Option.map_eq_some_iff, Prod.mk.injEq] at h <;>
        first | exact h | exact absurd hpc hidle
    obtain ⟨_, hs, rfl, rfl⟩ := h'
    refine ⟨⟨_, hs⟩, fun hne => ?_⟩
    obtain ⟨r, hr⟩ := Option.ne_none_iff_exists'.mp hne
    exact idle_of_popReturn hr hs

theorem stealStep_spec {r : Option (Deque.StealResult α)} (h : stealStep d i = some (d', r)) :
    (∃ a, Deque.step d a = some d') ∧ d'.owner = d.owner := by
  have h' : ∃ a, Deque.step d a = some d' ∧ (a = .steal i ∨ a = .thief i) := by
    cases hpc : d.thief i <;> simp only [stealStep, hpc, Option.map_eq_some_iff, Prod.mk.injEq] at h
    all_goals
      obtain ⟨_, hs, rfl, -⟩ := h
    · exact ⟨_, hs, .inl rfl⟩
    all_goals exact ⟨_, hs, .inr rfl⟩
  obtain ⟨a, hs, rfl | rfl⟩ := h'
  · refine ⟨⟨_, hs⟩, ?_⟩
    cases hpc : d.thief i <;> simp only [Deque.step, hpc, reduceCtorEq, Option.some.injEq] at hs
    rw [← hs]
  · refine ⟨⟨_, hs⟩, ?_⟩
    cases hpc : d.thief i <;> simp only [Deque.step, hpc, reduceCtorEq, Option.some.injEq] at hs <;>
      rw [← hs]

end Access

/-- The workers between their launch and their join. -/
def Active (s : State ι α) (i : ℕ) : Prop :=
  i < s.numWorkers ∧
    match s.run with
    | .launch j => i < j
    | .wait | .setShutdown => True
    | .join j => j ≤ i
    | _ => False

/-- Worker `i`, or `run`, is inside an owner operation of deque `i`, or about to enter one. -/
def Owned (s : State ι α) (i : ℕ) : Prop :=
  s.worker i = .pop ∨ (∃ wid task, s.call (.worker i) = some (.pushLocal wid task)) ∨
    i = 0 ∧ s.run = .drain

structure Inv (s : State ι α) : Prop where
  small : s.numWorkers < 2 ^ 32
  off : ∀ i, ¬ Active s i → s.worker i = .off
  quiet : ∀ i, (s.worker i).isRunning = false → s.call (.worker i) = none
  route : ∀ t pc wid, s.call t = some pc → pc.wid? = some wid → wid = t.tlWorkerId ∧ 0 ≤ wid
  deque : ∀ i d, s.deque i = some d → Deque.Inv d
  owned : ∀ i d, s.deque i = some d → d.owner ≠ .idle → Owned s i
  drained : s.run = .drain → s.injectQueue = [] → ∀ d, s.deque 0 = some d → d.owner = .idle

theorem Inv.active (h : Inv s) (hi : s.worker i ≠ .off) : Active s i := by
  by_contra hact
  exact hi (h.off i hact)

theorem Inv.lt (h : Inv s) (hi : s.worker i ≠ .off) : i < s.numWorkers := (h.active hi).1

/-- The owner of a deque is idle while its worker runs a task and is not in a `submit`. -/
theorem Inv.idle (h : Inv s) (hpop : s.worker i ≠ .pop)
    (hcall : ∀ wid task, s.call (.worker i) ≠ some (.pushLocal wid task))
    (hrun : i = 0 → s.run ≠ .drain) (hd : s.deque i = some d) : d.owner = .idle := by
  by_contra hne
  rcases h.owned i d hd hne with hw | ⟨wid, task, hc⟩ | ⟨h0, hr⟩
  · exact hpop hw
  · exact hcall wid task hc
  · exact hrun h0 hr

/-- A worker that exists is not there while `run` drains the injection queue. -/
theorem Inv.not_drain (h : Inv s) (hi : s.worker i ≠ .off) : s.run ≠ .drain := by
  intro hr
  have hact := (h.active hi).2
  rw [hr] at hact
  exact hact

/-- A thread on the worker path of `submit` pushes to the deque of its own worker. -/
theorem Inv.local_worker (h : Inv s) {pc : SubmitPc α} {wid : ℤ} (hc : s.call t = some pc)
    (hw : pc.wid? = some wid) : ∃ i, t = .worker i ∧ wid.toNat = i ∧ (s.worker i).isRunning := by
  obtain ⟨rfl, hnonneg⟩ := h.route t pc wid hc hw
  cases t with
  | outside o => cases hnonneg
  | worker i =>
    have hrun : (s.worker i).isRunning := by
      by_contra hr
      rw [h.quiet i (by simpa using hr)] at hc
      cases hc
    have hlt : i < s.numWorkers := h.lt fun hoff => by
      rw [hoff] at hrun
      cases hrun
    exact ⟨i, rfl, asInt_toNat (hlt.trans h.small) hnonneg, hrun⟩

theorem Inv.setDeque (h : Inv s) (hd : Deque.Inv d') (ho : d'.owner ≠ .idle → Owned s i)
    (h0 : i = 0 → s.run = .drain → s.injectQueue = [] → d'.owner = .idle) :
    Inv (s.setDeque i d') where
  small := h.small
  off := h.off
  quiet := h.quiet
  route := h.route
  deque j e he := by
    rcases eq_or_ne j i with rfl | hne
    · rw [setDeque_deque, Function.update_self, Option.some.injEq] at he
      exact he ▸ hd
    · rw [setDeque_deque, Function.update_of_ne hne] at he
      exact h.deque j e he
  owned j e he := by
    rcases eq_or_ne j i with rfl | hne
    · rw [setDeque_deque, Function.update_self, Option.some.injEq] at he
      exact he ▸ ho
    · rw [setDeque_deque, Function.update_of_ne hne] at he
      exact h.owned j e he
  drained hr hq e he := by
    rcases eq_or_ne 0 i with rfl | hne
    · rw [setDeque_deque, Function.update_self, Option.some.injEq] at he
      exact he ▸ h0 rfl hr hq
    · rw [setDeque_deque, Function.update_of_ne hne] at he
      exact h.drained hr hq e he

/-- A worker that is in no `submit` moves on, with its owner operation behind it. -/
theorem Inv.setWorker (h : Inv s) {pc : WorkerPc α} (hact : Active s i)
    (hc : s.call (.worker i) = none)
    (ho : s.worker i = .pop → pc = .pop ∨ ∀ d, s.deque i = some d → d.owner = .idle) :
    Inv (s.setWorker i pc) where
  small := h.small
  off j hj := by
    have hne : j ≠ i := by
      rintro rfl
      exact hj hact
    exact (Function.update_of_ne hne _ _).trans (h.off j hj)
  quiet j hj := by
    rcases eq_or_ne j i with rfl | hne
    · exact hc
    · exact h.quiet j (by simpa only [setWorker_worker, Function.update_of_ne hne] using hj)
  route := h.route
  deque := h.deque
  owned j e he hne := by
    rcases h.owned j e he hne with hw | hrest
    · rcases eq_or_ne j i with rfl | hji
      · rcases ho hw with rfl | hidle
        · exact .inl (Function.update_self _ _ _)
        · exact absurd (hidle e he) hne
      · exact .inl ((Function.update_of_ne hji _ _).trans hw)
    · exact .inr hrest
  drained := h.drained

variable [DecidableEq ι]

theorem Inv.setCall (h : Inv s) {c : Option (SubmitPc α)}
    (hr : ∀ i, t = .worker i → (s.worker i).isRunning)
    (hw : ∀ pc wid, c = some pc → pc.wid? = some wid → wid = t.tlWorkerId ∧ 0 ≤ wid)
    (ho : ∀ i wid task, t = .worker i → s.call t = some (.pushLocal wid task) →
      c = s.call t ∨ ∀ d, s.deque i = some d → d.owner = .idle) : Inv (s.setCall t c) where
  small := h.small
  off := h.off
  quiet j hj := by
    have hne : Thread.worker j ≠ t := by
      intro he
      rw [setCall_worker, hr j he.symm] at hj
      cases hj
    exact (Function.update_of_ne hne _ _).trans (h.quiet j hj)
  route t' pc wid ht hwid := by
    rcases eq_or_ne t' t with rfl | hne
    · exact hw pc wid (by simpa using ht) hwid
    · refine h.route t' pc wid ?_ hwid
      simpa only [setCall_call, Function.update_of_ne hne] using ht
  deque := h.deque
  owned j e he hne := by
    rcases h.owned j e he hne with hpop | ⟨wid, task, hc⟩ | hdrain
    · exact .inl hpop
    · right
      left
      rcases eq_or_ne (Thread.worker j) t with rfl | hjt
      · rcases ho j wid task rfl hc with rfl | hidle
        · exact ⟨wid, task, by rw [setCall_call, Function.update_self, hc]⟩
        · exact absurd (hidle e he) hne
      · exact ⟨wid, task, by rw [setCall_call, Function.update_of_ne hjt, hc]⟩
    · exact .inr (.inr hdrain)
  drained := h.drained

theorem inv_init : Inv (machine ι α).init where
  small := by simp [machine]
  off _ _ := rfl
  quiet _ _ := rfl
  route _ _ _ h := by cases h
  deque _ _ h := by cases h
  owned _ _ h := by cases h
  drained h := by cases h

theorem Inv.submit (h : Inv s) {task : α} (hs : step s (.submit t task) = some s') : Inv s' := by
  simp only [step] at hs
  split_ifs at hs with hcan
  cases hs
  have hnone : s.call t = none := by
    cases t <;> simp_all [canSubmit]
  refine h.setCall (fun i hi => ?_) (fun pc wid hc hw => ?_) fun i wid task _ hc => ?_
  · subst hi
    simp_all [canSubmit]
  · cases hc
    cases hw
  · rw [hnone] at hc
    cases hc

theorem Inv.call_step (h : Inv s) (hs : step s (.call t) = some s') : Inv s' := by
  cases hc : s.call t with
  | none => simp [step, hc] at hs
  | some pc =>
    simp only [step, hc, Option.map_eq_some_iff, Prod.exists] at hs
    obtain ⟨u, rest, hu, rfl⟩ := hs
    have hrun : ∀ i, t = .worker i → (s.worker i).isRunning := by
      rintro i rfl
      by_contra hr
      rw [h.quiet i (by simpa using hr)] at hc
      cases hc
    have hnotlocal : (∀ wid task, pc ≠ .pushLocal wid task) → ∀ i wid task, t = .worker i →
        s.call t = some (.pushLocal wid task) → rest = s.call t ∨
          ∀ d, s.deque i = some d → d.owner = .idle := by
      intro hpc i wid task _ hl
      rw [hc, Option.some.injEq] at hl
      exact absurd hl (hpc wid task)
    cases pc with
    | check task =>
      simp only [submitStep] at hu
      split_ifs at hu with hid <;> cases hu
      · refine h.setCall hrun (fun pc wid he hw => ?_) (hnotlocal nofun)
        cases he
        cases hw
        exact ⟨rfl, hid.1⟩
      · refine h.setCall hrun (fun pc wid he hw => ?_) (hnotlocal nofun)
        cases he
        cases hw
    | addLocal wid task =>
      cases hu
      have hroute := h.route t _ wid hc rfl
      refine Inv.setCall (s := { s with pending := s.pending + 1 })
        ⟨h.small, h.off, h.quiet, h.route, h.deque, h.owned, h.drained⟩ hrun
        (fun pc wid he hw => ?_) (hnotlocal nofun)
      cases he
      cases hw
      exact hroute
    | pushLocal wid task =>
      simp only [submitStep, Option.bind_eq_some_iff, Option.map_eq_some_iff, Prod.mk.injEq] at hu
      obtain ⟨d, hd, ⟨d', last⟩, hpush, rfl, rfl⟩ := hu
      obtain ⟨⟨a, hstep⟩, hlast⟩ := pushStep_spec hpush
      obtain ⟨i, rfl, hwid, hri⟩ := h.local_worker hc rfl
      rw [hwid] at hd ⊢
      have hdrain : s.run ≠ .drain := h.not_drain fun hoff => by
        rw [hoff] at hri
        cases hri
      have hd' : Inv (s.setDeque i d') :=
        h.setDeque (Deque.inv_step d a d' (h.deque i d hd) hstep)
          (fun _ => .inr (.inl ⟨wid, task, hc⟩)) fun _ hr => absurd hr hdrain
      refine hd'.setCall hrun (fun pc wid' he hw => ?_) fun j wid' task' hj hl => ?_
      · have hpc : pc = .pushLocal wid task := by
          split_ifs at he
          exact (Option.some.inj he).symm
        subst hpc
        cases hw
        exact h.route _ _ wid hc rfl
      · cases hj
        cases last with
        | true =>
          right
          intro e he
          rw [setDeque_deque, Function.update_self, Option.some.injEq] at he
          exact he ▸ hlast rfl
        | false => exact .inl hc.symm
    | lock task =>
      simp only [submitStep] at hu
      split_ifs at hu
      cases hu
      refine Inv.setCall (s := { s with injectMu := true })
        ⟨h.small, h.off, h.quiet, h.route, h.deque, h.owned, h.drained⟩ hrun
        (fun pc wid he hw => ?_) (hnotlocal nofun)
      cases he
      cases hw
    | addInject task =>
      cases hu
      refine Inv.setCall (s := { s with pending := s.pending + 1 })
        ⟨h.small, h.off, h.quiet, h.route, h.deque, h.owned, h.drained⟩ hrun
        (fun pc wid he hw => ?_) (hnotlocal nofun)
      cases he
      cases hw
    | pushInject task =>
      cases hu
      refine Inv.setCall (s := { s with injectQueue := s.injectQueue ++ [task], injectMu := false })
        ⟨h.small, h.off, h.quiet, h.route, h.deque, h.owned, fun _ hq => ?_⟩ hrun
        (fun pc wid he hw => ?_) (hnotlocal nofun)
      · exact absurd hq (by simp)
      · cases he

/-- A worker outside its own pop keeps the deques of the others owned as they were. -/
theorem Inv.worker_step (h : Inv s) {rng : ℕ} (hs : step s (.worker i rng) = some s') : Inv s' := by
  simp only [step, Option.map_eq_some_iff, Prod.exists] at hs
  obtain ⟨u, pc', hu, rfl⟩ := hs
  have hmove : ∀ {pc : WorkerPc α}, s.worker i = pc → pc ≠ .off → pc.isRunning = false →
      Active s i ∧ s.call (.worker i) = none := by
    rintro pc rfl hoff hr
    exact ⟨h.active hoff, h.quiet i hr⟩
  cases hpc : s.worker i with
  | start =>
    obtain ⟨hact, hcall⟩ := hmove hpc nofun rfl
    rw [hpc] at hu
    cases hu
    exact h.setWorker hact hcall fun hw => by
      rw [hpc] at hw
      cases hw
  | pop =>
    obtain ⟨hact, hcall⟩ := hmove hpc nofun rfl
    simp only [hpc, workerStep, Option.bind_eq_some_iff, Option.map_eq_some_iff,
      Prod.mk.injEq] at hu
    obtain ⟨d, hd, ⟨d', r⟩, hpop, rfl, rfl⟩ := hu
    obtain ⟨⟨a, hstep⟩, hret⟩ := popStep_spec hpop
    have hd' : Inv (s.setDeque i d') :=
      h.setDeque (Deque.inv_step d a d' (h.deque i d hd) hstep) (fun _ => .inl hpc)
        fun _ hr => absurd hr (h.not_drain (i := i) (by simp [hpc]))
    refine hd'.setWorker hact hcall fun _ => ?_
    cases r with
    | none => exact .inl rfl
    | some r =>
      right
      intro e he
      rw [setDeque_deque, Function.update_self, Option.some.injEq] at he
      exact he ▸ hret nofun
  | steal start attempt =>
    obtain ⟨hact, hcall⟩ := hmove hpc nofun rfl
    have hnotpop : s.worker i = .pop → pc' = .pop ∨ ∀ d, u.deque i = some d → d.owner = .idle :=
      fun hw => by
        rw [hpc] at hw
        cases hw
    simp only [hpc, workerStep] at hu
    split_ifs at hu
    · simp only [Option.bind_eq_some_iff, Option.map_eq_some_iff, Prod.mk.injEq] at hu
      obtain ⟨d, hd, ⟨d', r⟩, hsteal, rfl, rfl⟩ := hu
      obtain ⟨⟨a, hstep⟩, howner⟩ := stealStep_spec hsteal
      have hd' : Inv (s.setDeque (victim (u32 s.size) i start attempt) d') := by
        refine h.setDeque (Deque.inv_step d a d' (h.deque _ d hd) hstep) (fun hne => ?_)
          fun h0 hr hq => ?_
        · exact h.owned _ d hd (howner ▸ hne)
        · rw [howner]
          exact h.drained hr hq d (h0 ▸ hd)
      exact hd'.setWorker hact hcall hnotpop
    · cases hu
      exact h.setWorker hact hcall hnotpop
  | checkPending =>
    obtain ⟨hact, hcall⟩ := hmove hpc nofun rfl
    rw [hpc] at hu
    cases hu
    exact h.setWorker hact hcall fun hw => by
      rw [hpc] at hw
      cases hw
  | checkShutdown =>
    obtain ⟨hact, hcall⟩ := hmove hpc nofun rfl
    rw [hpc] at hu
    cases hu
    exact h.setWorker hact hcall fun hw => by
      rw [hpc] at hw
      cases hw
  | pick =>
    obtain ⟨hact, hcall⟩ := hmove hpc nofun rfl
    rw [hpc] at hu
    cases hu
    exact h.setWorker hact hcall fun hw => by
      rw [hpc] at hw
      cases hw
  | _ => simp [hpc, workerStep] at hu

theorem Inv.finish (h : Inv s) (hs : step s (.finish i) = some s') : Inv s' := by
  cases hpc : s.worker i <;> simp only [step, hpc, reduceCtorEq] at hs
  cases hc : s.call (.worker i) <;> simp only [hc, reduceCtorEq, Option.some.injEq] at hs
  subst hs
  refine Inv.setWorker (s := { s with pending := s.pending - 1 })
    ⟨h.small, h.off, h.quiet, h.route, h.deque, h.owned, h.drained⟩ ?_ hc fun hw => ?_
  · exact h.active (by simp [hpc])
  · have hw' : s.worker i = .pop := hw
    rw [hpc] at hw'
    cases hw'

omit [DecidableEq ι] in
/-- An access of `run` that leaves the workers and their deques where they are. -/
theorem Inv.of_run {m : State ι α} (h : Inv s) (hn : m.numWorkers < 2 ^ 32)
    (hw : m.worker = s.worker) (hc : m.call = s.call) (hd : m.deque = s.deque)
    (ha : ∀ i, Active s i → Active m i) (hr : s.run ≠ .drain)
    (h0 : m.run = .drain → ∀ d, s.deque 0 = some d → d.owner = .idle) : Inv m where
  small := hn
  off i hi := hw ▸ h.off i fun hact => hi (ha i hact)
  quiet i hi := hc ▸ h.quiet i (hw ▸ hi)
  route t pc wid ht := h.route t pc wid (hc ▸ ht)
  deque i d hi := h.deque i d (hd ▸ hi)
  owned i d hi hne := by
    rcases h.owned i d (hd ▸ hi) hne with hpop | ⟨wid, task, hl⟩ | ⟨-, hdrain⟩
    · exact .inl (hw ▸ hpop)
    · exact .inr (.inl ⟨wid, task, hc ▸ hl⟩)
    · exact absurd hdrain hr
  drained hdrain _ d hd0 := h0 hdrain d (hd ▸ hd0)

omit [DecidableEq ι] in
/-- `run` empties the vector of contexts. -/
theorem Inv.clear {m : State ι α} (h : Inv s) (hn : m.numWorkers = s.numWorkers)
    (hw : m.worker = s.worker) (hc : m.call = s.call) (hd : ∀ i, m.deque i = none)
    (ha : ∀ i, ¬ Active s i) : Inv m where
  small := hn ▸ h.small
  off i _ := hw ▸ h.off i (ha i)
  quiet i hi := hc ▸ h.quiet i (hw ▸ hi)
  route t pc wid ht := h.route t pc wid (hc ▸ ht)
  deque i d hi := by simp [hd] at hi
  owned i d hi := by simp [hd] at hi
  drained _ _ d h0 := by simp [hd] at h0

theorem Inv.runner (h : Inv s) (hs : step s .runner = some s') : Inv s' := by
  simp only [step] at hs
  cases hr : s.run with
  | idle => simp [hr, runStep] at hs
  | clear =>
    simp only [hr, runStep, Option.some.injEq] at hs
    subst hs
    exact h.clear rfl rfl rfl (fun _ => rfl) fun i hi => by simp [Active, hr] at hi
  | resize =>
    simp only [hr, runStep, Option.some.injEq] at hs
    subst hs
    exact h.of_run h.small rfl rfl rfl (fun i hi => by simp [Active, hr] at hi) (by simp [hr])
      (by simp)
  | build j =>
    simp only [hr, runStep] at hs
    split_ifs at hs with hj <;> cases hs
    · have hfresh : Inv (s.setDeque j (Deque.machine ℕ α).init) :=
        h.setDeque Deque.inv_init (fun hne => absurd rfl hne) fun _ _ _ => rfl
      exact hfresh.of_run h.small rfl rfl rfl (fun i hi => by simp [Active, hr] at hi)
        (by simp [hr]) (by simp)
    · exact h.of_run h.small rfl rfl rfl (fun i hi => by simp [Active, hr] at hi) (by simp [hr])
        (by simp)
  | reset =>
    simp only [hr, runStep, Option.some.injEq] at hs
    subst hs
    exact h.of_run h.small rfl rfl rfl (fun i hi => by simp [Active, hr] at hi) (by simp [hr])
      (by simp)
  | lockDrain =>
    simp only [hr, runStep] at hs
    split_ifs at hs
    cases hs
    refine h.of_run h.small rfl rfl rfl (fun i hi => by simp [Active, hr] at hi) (by simp [hr])
      fun _ d hd => ?_
    have hoff : s.worker 0 = .off := h.off 0 fun hact => by simp [Active, hr] at hact
    have hcall : s.call (.worker 0) = none := h.quiet 0 (by rw [hoff]; rfl)
    exact h.idle (by simp [hoff]) (by simp [hcall]) (by simp [hr]) hd
  | drain =>
    simp only [hr, runStep] at hs
    cases hq : s.injectQueue with
    | nil =>
      simp only [hq, Option.some.injEq] at hs
      subst hs
      have hidle := h.drained hr hq
      refine ⟨h.small, fun i _ => h.off i fun hact => by simp [Active, hr] at hact, h.quiet,
        h.route, h.deque, fun i d hd hne => ?_, (by simp)⟩
      rcases h.owned i d hd hne with hpop | hcall | ⟨rfl, -⟩
      · exact .inl hpop
      · exact .inr (.inl hcall)
      · exact absurd (hidle d hd) hne
    | cons task rest =>
      simp only [hq, Option.bind_eq_some_iff, Option.map_eq_some_iff] at hs
      obtain ⟨d, hd, ⟨d', last⟩, hpush, rfl⟩ := hs
      obtain ⟨⟨a, hstep⟩, hlast⟩ := pushStep_spec hpush
      have hd' : Inv (s.setDeque 0 d') :=
        h.setDeque (Deque.inv_step d a d' (h.deque 0 d hd) hstep)
          (fun _ => .inr (.inr ⟨rfl, hr⟩)) fun _ _ hnil => by simp [hq] at hnil
      refine ⟨hd'.small, hd'.off, hd'.quiet, hd'.route, hd'.deque, hd'.owned,
        fun _ hnil e he => ?_⟩
      cases last with
      | false => simp at hnil
      | true =>
        have hself : (s.setDeque 0 d').deque 0 = some d' := by simp
        obtain rfl : d' = e := Option.some.inj (hself.symm.trans he)
        exact hlast rfl
  | launch j =>
    simp only [hr, runStep] at hs
    split_ifs at hs with hj <;> cases hs
    · have hoff : s.worker j = .off := h.off j fun hact => by simp [Active, hr] at hact
      have hcall : s.call (.worker j) = none := h.quiet j (by rw [hoff]; rfl)
      have hnext : Inv { s with run := .launch (j + 1) } :=
        h.of_run h.small rfl rfl rfl (fun i hi => ⟨hi.1, by
          have hlt := hi.2
          simp only [hr] at hlt
          exact hlt.trans (Nat.lt_succ_self j)⟩) (by simp [hr]) (by simp)
      exact hnext.setWorker ⟨hj, Nat.lt_succ_self j⟩ hcall fun hw => by
        have hw' : s.worker j = .pop := hw
        rw [hoff] at hw'
        cases hw'
    · exact h.of_run h.small rfl rfl rfl (fun i hi => ⟨hi.1, trivial⟩) (by simp [hr]) (by simp)
  | wait =>
    simp only [hr, runStep] at hs
    split_ifs at hs <;> cases hs
    · exact h
    · exact h.of_run h.small rfl rfl rfl (fun i hi => ⟨hi.1, trivial⟩) (by simp [hr]) (by simp)
  | setShutdown =>
    simp only [hr, runStep, Option.some.injEq] at hs
    subst hs
    exact h.of_run h.small rfl rfl rfl (fun i hi => ⟨hi.1, Nat.zero_le i⟩) (by simp [hr]) (by simp)
  | join j =>
    simp only [hr, runStep] at hs
    split_ifs at hs with hj hex <;> cases hs
    · have hact : Active s j := ⟨hj, by simp [hr]⟩
      have hnot : (s.worker j).isRunning = false := by
        cases hw : s.worker j <;> simp_all [WorkerPc.isExited, WorkerPc.isRunning]
      have hoff : Inv (s.setWorker j .off) :=
        h.setWorker hact (h.quiet j hnot) fun hw => by
          rw [hw] at hex
          cases hex
      refine ⟨hoff.small, fun i hi => ?_, hoff.quiet, hoff.route, hoff.deque, fun i d hd hne => ?_,
        (by simp)⟩
      · rcases eq_or_ne i j with rfl | hne
        · exact Function.update_self _ _ _
        · refine hoff.off i fun hact' => hi ⟨hact'.1, ?_⟩
          have hle : j ≤ i := by simpa [hr] using hact'.2
          exact Nat.lt_of_le_of_ne hle hne.symm
      · rcases hoff.owned i d hd hne with hpop | hcall | ⟨-, hdrain⟩
        · exact .inl hpop
        · exact .inr (.inl hcall)
        · simp [hr] at hdrain
    · refine h.of_run h.small rfl rfl rfl (fun i hi => ?_) (by simp [hr]) (by simp)
      have hle := hi.2
      simp only [hr] at hle
      exact absurd (hle.trans_lt hi.1) hj
  | clearEnd =>
    simp only [hr, runStep, Option.some.injEq] at hs
    subst hs
    exact h.clear rfl rfl rfl (fun _ => rfl) fun i hi => by simp [Active, hr] at hi

theorem inv_step (s : State ι α) (a : Action ι α) (s' : State ι α) (h : Inv s)
    (hs : step s a = some s') : Inv s' := by
  cases a with
  | submit t task => exact h.submit hs
  | call t => exact h.call_step hs
  | worker i rng => exact h.worker_step hs
  | finish i => exact h.finish hs
  | run n =>
    cases hr : s.run <;> simp only [step, hr, reduceCtorEq] at hs
    split_ifs at hs with hn
    cases hs
    exact h.of_run hn rfl rfl rfl (fun i hi => by simp [Active, hr] at hi) (by simp [hr]) nofun
  | runner => exact h.runner hs

end TaskScheduler.StealingDeques
