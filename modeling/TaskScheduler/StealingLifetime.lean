import TaskScheduler.DequeDestruction
import TaskScheduler.StealingLedger

/-!
# The lifetime of the contexts of WorkStealingScheduler

Every call inside a deque finds it there, and `run` destroys the deques when no thread is inside
them.
-/
namespace TaskScheduler.StealingDeques
open Transition
open WorkStealing (SubmitPc WorkerPc RunPc asInt u32 sweepStart victim)

variable {ι α : Type*} {s s' : State ι α} {d d' : Deque.State ℕ α} {i j : ℕ} {t : Thread ι}

section Access

/-- An owner operation is an access of the owner, and leaves the thieves where they are. -/
theorem pushStep_access {task : α} {last : Bool} (h : pushStep d task = some (d', last)) :
    (∃ a, Deque.step d a = some d') ∧ d'.thief = d.thief := by
  refine ⟨(pushStep_spec h).1, ?_⟩
  cases hpc : d.owner <;> simp only [pushStep, hpc, Option.map_eq_some_iff, Prod.mk.injEq] at h <;>
    obtain ⟨_, hs, rfl, -⟩ := h <;>
    simp only [Deque.step, hpc, Option.some.injEq] at hs <;>
    rw [← hs]

theorem popStep_access {r : Option (Option α)} (h : popStep d = some (d', r)) :
    (∃ a, Deque.step d a = some d') ∧ d'.thief = d.thief := by
  refine ⟨(popStep_spec h).1, ?_⟩
  cases hpc : d.owner <;> simp only [popStep, hpc, Option.map_eq_some_iff, Prod.mk.injEq] at h <;>
    obtain ⟨_, hs, rfl, -⟩ := h <;>
    simp only [Deque.step, hpc, Option.some.injEq] at hs <;>
    rw [← hs]

/-- A thief whose `steal` has returned is idle. -/
theorem idle_of_stealReturn {r : Deque.StealResult α}
    (hr : (Deque.thiefStep d.mem (d.thief i)).2.2 = some r) :
    (Deque.thiefStep d.mem (d.thief i)).2.1 = .idle := by
  cases hpc : d.thief i with
  | loadBot t =>
    simp only [hpc, Deque.thiefStep] at hr ⊢
    split_ifs at hr ⊢
    rfl
  | cas t raw =>
    simp only [Deque.thiefStep]
    split_ifs <;> rfl
  | _ => simp [hpc, Deque.thiefStep] at hr

theorem stealStep_access {r : Option (Deque.StealResult α)} (h : stealStep d i = some (d', r)) :
    (∃ a, Deque.step d a = some d') ∧ (∀ j, j ≠ i → d'.thief j = d.thief j) ∧
      (r ≠ none → d'.thief i = .idle) := by
  refine ⟨(stealStep_spec h).1, ?_⟩
  by_cases hidle : d.thief i = .idle
  · simp only [stealStep, hidle, Option.map_eq_some_iff, Prod.mk.injEq] at h
    obtain ⟨_, hs, rfl, rfl⟩ := h
    simp only [Deque.step, hidle, Option.some.injEq] at hs
    rw [← hs]
    exact ⟨fun j hj => Function.update_of_ne hj _ _, fun hne => absurd rfl hne⟩
  · have h' : ∃ e, Deque.step d (.thief i) = some e ∧ e = d' ∧
        Deque.stealReturn d (.thief i) = r := by
      cases hpc : d.thief i <;>
        simp only [stealStep, hpc, Option.map_eq_some_iff, Prod.mk.injEq] at h <;>
        first | exact h | exact absurd hpc hidle
    obtain ⟨_, hs, rfl, rfl⟩ := h'
    have hthief : ∀ e, Deque.step d (.thief i) = some e →
        e.thief = Function.update d.thief i (Deque.thiefStep d.mem (d.thief i)).2.1 := by
      intro e he
      cases hpc : d.thief i <;>
        simp only [Deque.step, hpc, reduceCtorEq, Option.some.injEq] at he <;> rw [← he]
    rw [hthief _ hs]
    refine ⟨fun j hj => Function.update_of_ne hj _ _, fun hne => ?_⟩
    obtain ⟨r, hr⟩ := Option.ne_none_iff_exists'.mp hne
    rw [Function.update_self]
    exact idle_of_stealReturn hr

theorem pushStep_enabled (d : Deque.State ℕ α) (task : α) : (pushStep d task).isSome := by
  cases hpc : d.owner <;> simp [pushStep, hpc, Deque.step]

theorem popStep_enabled (d : Deque.State ℕ α) : (popStep d).isSome := by
  cases hpc : d.owner <;> simp [popStep, hpc, Deque.step]

theorem stealStep_enabled (d : Deque.State ℕ α) (i : ℕ) : (stealStep d i).isSome := by
  cases hpc : d.thief i <;> simp [stealStep, hpc, Deque.step]

end Access

/-- Worker `j` is in the attempt of a sweep whose victim is worker `i`. -/
def Robs (s : State ι α) (j i : ℕ) : Prop :=
  ∃ start attempt, s.worker j = .steal start attempt ∧ attempt < u32 s.size - 1 ∧
    victim (u32 s.size) j start attempt = i

/-- The deques that `run` has made are there, as the deque leaves them, with no thief inside but
a worker that robs them. -/
structure Guarded (s : State ι α) : Prop where
  sized : built s.run = true → s.size = s.numWorkers
  made : ∀ i, Built s i → ∃ d, s.deque i = some d
  reach : ∀ i d, s.deque i = some d → Reachable (Deque.machine ℕ α) d
  thief : ∀ i d j, s.deque i = some d → d.thief j ≠ .idle → Robs s j i

theorem victim_lt {n start attempt : ℕ} (h : attempt < n - 1) : victim n i start attempt < n := by
  simp only [victim]
  split_ifs <;> exact Nat.mod_lt _ (by omega)

/-- While a worker exists all contexts do. -/
theorem Inv.contexts (h : Inv s) (hw : s.worker i ≠ .off) :
    built s.run = true ∧ ∀ k < s.numWorkers, Built s k := by
  obtain ⟨-, hact⟩ := h.active hw
  refine ⟨?_, fun k hk => ⟨hk, ?_⟩⟩ <;> cases hr : s.run <;> simp_all [built]

/-- A step that leaves the deques where they are, and the thieves in them. -/
theorem Guarded.mono {m : State ι α} (h : Guarded s) (hd : m.deque = s.deque)
    (hb : ∀ i, Built m i → Built s i) (hsized : built m.run = true → m.size = m.numWorkers)
    (hw : ∀ j, (∃ start attempt, s.worker j = .steal start attempt) →
      m.size = s.size ∧ (m.worker j = s.worker j ∨ ∀ i d, s.deque i = some d → d.thief j = .idle)) :
    Guarded m where
  sized := hsized
  made i hi := hd ▸ h.made i (hb i hi)
  reach i d hi := h.reach i d (hd ▸ hi)
  thief i d j hi hne := by
    rw [hd] at hi
    obtain ⟨start, attempt, hj, hlt, hv⟩ := h.thief i d j hi hne
    obtain ⟨hsize, hsame | hidle⟩ := hw j ⟨start, attempt, hj⟩
    · exact ⟨start, attempt, hsame.trans hj, hsize ▸ hlt, hsize ▸ hv⟩
    · exact absurd (hidle i d hi) hne

/-- An access inside a deque. -/
theorem Guarded.setDeque (h : Guarded s) (hd : s.deque i = some d)
    (hs : ∃ a, Deque.step d a = some d')
    (ht : ∀ j, d'.thief j ≠ .idle → d.thief j ≠ .idle ∨ Robs s j i) :
    Guarded (s.setDeque i d') where
  sized := h.sized
  made j hj := by
    rcases eq_or_ne j i with rfl | hne
    · exact ⟨d', Function.update_self _ _ _⟩
    · rw [setDeque_deque, Function.update_of_ne hne]
      exact h.made j hj
  reach j e he := by
    rcases eq_or_ne j i with rfl | hne
    · rw [setDeque_deque, Function.update_self, Option.some.injEq] at he
      obtain ⟨a, ha⟩ := hs
      exact he ▸ (h.reach j d hd).next ha
    · rw [setDeque_deque, Function.update_of_ne hne] at he
      exact h.reach j e he
  thief k e j he hne := by
    rcases eq_or_ne k i with rfl | hki
    · rw [setDeque_deque, Function.update_self, Option.some.injEq] at he
      subst he
      rcases ht j hne with hold | hrobs
      · exact h.thief k d j hd hold
      · exact hrobs
    · rw [setDeque_deque, Function.update_of_ne hki] at he
      exact h.thief k e j he hne

/-- A worker moves on that is inside no `steal`. -/
theorem Guarded.setWorker (h : Guarded s) {pc : WorkerPc α}
    (hi : ∀ k d, s.deque k = some d → d.thief i = .idle) : Guarded (s.setWorker i pc) := by
  refine h.mono rfl (fun _ hb => hb) h.sized fun j _ => ⟨rfl, ?_⟩
  rcases eq_or_ne j i with rfl | hne
  · exact .inr hi
  · exact .inl (Function.update_of_ne hne _ _)

/-- A worker outside its sweep is inside no `steal`. -/
theorem Guarded.idle (h : Guarded s) (hi : ∀ start attempt, s.worker i ≠ .steal start attempt)
    {k : ℕ} (hd : s.deque k = some d) : d.thief i = .idle := by
  by_contra hne
  obtain ⟨start, attempt, hw, -⟩ := h.thief k d i hd hne
  exact hi start attempt hw

theorem Guarded.steal (h : Guarded s) {start attempt : ℕ} {r : Option (Deque.StealResult α)}
    (hw : s.worker i = .steal start attempt) (hlt : attempt < u32 s.size - 1)
    (hd : s.deque (victim (u32 s.size) i start attempt) = some d)
    (hs : stealStep d i = some (d', r)) :
    Guarded ((s.setDeque (victim (u32 s.size) i start attempt) d').setWorker i
      (afterSteal start attempt r)) := by
  obtain ⟨hstep, hother, hret⟩ := stealStep_access hs
  have hrobs : Robs s i (victim (u32 s.size) i start attempt) := ⟨start, attempt, hw, hlt, rfl⟩
  have hd' : Guarded (s.setDeque (victim (u32 s.size) i start attempt) d') := by
    refine h.setDeque hd hstep fun j hne => ?_
    rcases eq_or_ne j i with rfl | hji
    · exact .inr hrobs
    · exact .inl (hother j hji ▸ hne)
  cases r with
  | none =>
    refine hd'.mono rfl (fun _ hb => hb) hd'.sized fun j _ => ⟨rfl, .inl ?_⟩
    rcases eq_or_ne j i with rfl | hji
    · exact (Function.update_self _ _ _).trans hw.symm
    · exact Function.update_of_ne hji _ _
  | some r =>
    refine hd'.setWorker fun k e he => ?_
    rcases eq_or_ne k (victim (u32 s.size) i start attempt) with rfl | hne
    · rw [setDeque_deque, Function.update_self, Option.some.injEq] at he
      exact he ▸ hret (by simp)
    · rw [setDeque_deque, Function.update_of_ne hne] at he
      by_contra hbusy
      obtain ⟨start', attempt', hw', -, hv⟩ := h.thief k e i he hbusy
      rw [hw, WorkerPc.steal.injEq] at hw'
      rw [← hw'.1, ← hw'.2] at hv
      exact hne hv.symm

section Steps
variable [DecidableEq ι]

theorem guarded_worker (h : Guarded s) {rng : ℕ}
    (hs : step s (.worker i rng) = some s') : Guarded s' := by
  simp only [step, Option.map_eq_some_iff, Prod.exists] at hs
  obtain ⟨u, pc', hu, rfl⟩ := hs
  -- A step outside the deques.
  have hstill : (∀ start attempt, s.worker i ≠ .steal start attempt) → s = u →
      Guarded (u.setWorker i pc') := by
    intro hw hsame
    subst hsame
    exact h.setWorker fun k d hd => h.idle hw hd
  cases hw : s.worker i with
  | pop =>
    simp only [hw, workerStep, Option.bind_eq_some_iff, Option.map_eq_some_iff, Prod.mk.injEq] at hu
    obtain ⟨d, hd, ⟨d', r⟩, hp, rfl, rfl⟩ := hu
    obtain ⟨hstep, hthief⟩ := popStep_access hp
    have hd' : Guarded (s.setDeque i d') :=
      h.setDeque hd hstep fun j hne => .inl (hthief ▸ hne)
    exact hd'.setWorker fun k e he => hd'.idle (by simp [hw]) he
  | steal start attempt =>
    simp only [hw, workerStep] at hu
    split_ifs at hu with hlt
    · simp only [Option.bind_eq_some_iff, Option.map_eq_some_iff, Prod.mk.injEq] at hu
      obtain ⟨d, hd, ⟨d', r⟩, hp, rfl, rfl⟩ := hu
      exact h.steal hw hlt hd hp
    · cases hu
      refine h.setWorker fun k d hd => ?_
      by_contra hbusy
      obtain ⟨start', attempt', hw', hlt', -⟩ := h.thief k d i hd hbusy
      rw [hw, WorkerPc.steal.injEq] at hw'
      exact hlt (hw'.2 ▸ hlt')
  | start | checkPending | checkShutdown | pick =>
    rw [hw] at hu
    cases hu
    exact hstill (by simp [hw]) rfl
  | _ => simp [hw, workerStep] at hu

theorem guarded_runner (h : Guarded s) (hi : Inv s) (hx : Contexts s)
    (hs : step s .runner = some s') : Guarded s' := by
  simp only [step] at hs
  -- `run` moves on among the contexts that it has made.
  have hstill : ∀ m : State ι α, m.deque = s.deque → m.worker = s.worker → m.size = s.size →
      m.numWorkers = s.numWorkers → (∀ i, Built m i → Built s i) →
      (built m.run = true → built s.run = true) → Guarded m := by
    intro m hd hw hsz hn hb hbuilt
    refine h.mono hd hb (fun hm => ?_) fun j _ => ⟨hsz, .inl (congrFun hw j)⟩
    rw [hsz, hn]
    exact h.sized (hbuilt hm)
  cases hr : s.run with
  | idle => simp [hr, runStep] at hs
  | clear | clearEnd =>
    simp only [hr, runStep, Option.some.injEq] at hs
    subst hs
    exact ⟨by simp [built], fun i hb => absurd hb.2 (by simp), fun i d hd => (by cases hd),
      fun i d j hd => by cases hd⟩
  | resize =>
    simp only [hr, runStep, Option.some.injEq] at hs
    subst hs
    have hd : ∀ i, s.deque i = none := fun i => hx.unbuilt i (by simp [Built, hr])
    refine ⟨fun _ => rfl, fun i hb => by simp [Built] at hb, fun i d he => ?_, fun i d j he => ?_⟩
    · have he' : s.deque i = some d := he
      rw [hd i] at he'
      cases he'
    · have he' : s.deque i = some d := he
      rw [hd i] at he'
      cases he'
  | build j =>
    simp only [hr, runStep] at hs
    split_ifs at hs with hj <;> cases hs
    · refine ⟨fun _ => h.sized (by rw [hr]; rfl), fun i hb => ?_, fun i d he => ?_,
        fun i d k he hne => ?_⟩
      · rcases eq_or_ne i j with rfl | hne
        · exact ⟨_, Function.update_self _ _ _⟩
        · have hlt : i < j + 1 := hb.2
          obtain ⟨d, hd⟩ := h.made i ⟨hb.1, by rw [hr]; exact (by omega : i < j)⟩
          exact ⟨d, (Function.update_of_ne hne _ _).trans hd⟩
      · rcases eq_or_ne i j with rfl | hne
        · have hself : Function.update s.deque i (some (Deque.machine ℕ α).init) i = some d := he
          rw [Function.update_self, Option.some.injEq] at hself
          exact hself ▸ ⟨[], .nil⟩
        · exact h.reach i d ((Function.update_of_ne hne _ _).symm.trans he)
      · rcases eq_or_ne i j with rfl | hij
        · have hself : Function.update s.deque i (some (Deque.machine ℕ α).init) i = some d := he
          rw [Function.update_self, Option.some.injEq] at hself
          rw [← hself] at hne
          exact absurd rfl hne
        · exact h.thief i d k ((Function.update_of_ne hij _ _).symm.trans he) hne
    · exact hstill _ rfl rfl rfl rfl
        (fun i hb => ⟨hb.1, by rw [hr]; exact hb.1.trans_le (not_lt.mp hj)⟩)
        fun _ => by rw [hr]; rfl
  | reset =>
    simp only [hr, runStep, Option.some.injEq] at hs
    subst hs
    exact hstill _ rfl rfl rfl rfl (fun i hb => ⟨hb.1, by rw [hr]; trivial⟩)
      fun _ => by rw [hr]; rfl
  | lockDrain =>
    simp only [hr, runStep] at hs
    split_ifs at hs
    cases hs
    exact hstill _ rfl rfl rfl rfl (fun i hb => ⟨hb.1, by rw [hr]; trivial⟩)
      fun _ => by rw [hr]; rfl
  | drain =>
    simp only [hr, runStep] at hs
    cases hq : s.injectQueue with
    | nil =>
      simp only [hq, Option.some.injEq] at hs
      subst hs
      exact hstill _ rfl rfl rfl rfl (fun i hb => ⟨hb.1, by rw [hr]; trivial⟩)
        fun _ => by rw [hr]; rfl
    | cons task rest =>
      simp only [hq, Option.bind_eq_some_iff, Option.map_eq_some_iff] at hs
      obtain ⟨d, hd, ⟨d', last⟩, hp, rfl⟩ := hs
      obtain ⟨hstep, hthief⟩ := pushStep_access hp
      have hd' : Guarded (s.setDeque 0 d') :=
        h.setDeque hd hstep fun j hne => .inl (hthief ▸ hne)
      exact hd'.mono rfl (fun _ hb => hb) hd'.sized fun j _ => ⟨rfl, .inl rfl⟩
  | launch j =>
    simp only [hr, runStep] at hs
    split_ifs at hs <;> cases hs
    · have hoff : s.worker j = .off := hi.off j fun hact => by simp [Active, hr] at hact
      have hj : Guarded (s.setWorker j .start) :=
        h.setWorker fun k d hd => h.idle (by simp [hoff]) hd
      exact hj.mono rfl (fun i hb => ⟨hb.1, by rw [setWorker_run, hr]; trivial⟩)
        (fun _ => h.sized (by rw [hr]; rfl)) fun _ _ => ⟨rfl, .inl rfl⟩
    · exact hstill _ rfl rfl rfl rfl (fun i hb => ⟨hb.1, by rw [hr]; trivial⟩)
        fun _ => by rw [hr]; rfl
  | wait =>
    simp only [hr, runStep] at hs
    split_ifs at hs <;> cases hs
    · exact h
    · exact hstill _ rfl rfl rfl rfl (fun i hb => ⟨hb.1, by rw [hr]; trivial⟩)
        fun _ => by rw [hr]; rfl
  | setShutdown =>
    simp only [hr, runStep, Option.some.injEq] at hs
    subst hs
    exact hstill _ rfl rfl rfl rfl (fun i hb => ⟨hb.1, by rw [hr]; trivial⟩)
      fun _ => by rw [hr]; rfl
  | join j =>
    simp only [hr, runStep] at hs
    split_ifs at hs with _ hex <;> cases hs
    · have hj : Guarded (s.setWorker j .off) := by
        refine h.setWorker fun k d hd => h.idle (fun start attempt hw => ?_) hd
        rw [hw] at hex
        cases hex
      exact hj.mono rfl (fun i hb => ⟨hb.1, by rw [setWorker_run, hr]; trivial⟩)
        (fun _ => h.sized (by rw [hr]; rfl)) fun _ _ => ⟨rfl, .inl rfl⟩
    · exact hstill _ rfl rfl rfl rfl (fun i hb => ⟨hb.1, by rw [hr]; trivial⟩)
        (by simp [built])

theorem guarded_step {a : Action ι α} (h : Guarded s) (hi : Inv s) (hx : Contexts s)
    (hs : step s a = some s') : Guarded s' := by
  cases a with
  | submit t task =>
    simp only [step] at hs
    split_ifs at hs
    cases hs
    exact h.mono rfl (fun _ hb => hb) h.sized fun _ _ => ⟨rfl, .inl rfl⟩
  | call t =>
    cases hc : s.call t with
    | none => simp [step, hc] at hs
    | some pc =>
      simp only [step, hc, Option.map_eq_some_iff, Prod.exists] at hs
      obtain ⟨u, rest, hu, rfl⟩ := hs
      have hu' : Guarded u := by
        cases pc with
        | pushLocal wid task =>
          simp only [submitStep, Option.bind_eq_some_iff, Option.map_eq_some_iff,
            Prod.mk.injEq] at hu
          obtain ⟨d, hd, ⟨d', last⟩, hp, rfl, -⟩ := hu
          obtain ⟨hstep, hthief⟩ := pushStep_access hp
          exact h.setDeque hd hstep fun j hne => .inl (hthief ▸ hne)
        | check task | lock task =>
          simp only [submitStep] at hu
          split_ifs at hu <;> cases hu <;>
            exact h.mono rfl (fun _ hb => hb) h.sized fun _ _ => ⟨rfl, .inl rfl⟩
        | addLocal wid task | addInject task | pushInject task =>
          cases hu
          exact h.mono rfl (fun _ hb => hb) h.sized fun _ _ => ⟨rfl, .inl rfl⟩
      exact hu'.mono rfl (fun _ hb => hb) hu'.sized fun _ _ => ⟨rfl, .inl rfl⟩
  | worker i rng => exact guarded_worker h hs
  | finish i =>
    cases hw : s.worker i <;> simp only [step, hw, reduceCtorEq] at hs
    cases hc : s.call (.worker i) <;> simp only [hc, reduceCtorEq, Option.some.injEq] at hs
    subst hs
    have hi' : Guarded (s.setWorker i (if s.pending = 1 then .exited else .pop)) :=
      h.setWorker fun k d hd => h.idle (by simp [hw]) hd
    exact hi'.mono rfl (fun _ hb => hb) hi'.sized fun _ _ => ⟨rfl, .inl rfl⟩
  | run n =>
    cases hr : s.run <;> simp only [step, hr, reduceCtorEq] at hs
    split_ifs at hs
    cases hs
    exact h.mono rfl (fun i hb => absurd hb.2 (by simp)) (by simp [built])
      fun _ _ => ⟨rfl, .inl rfl⟩
  | runner => exact guarded_runner h hi hx hs

variable [Fintype ι]

theorem guarded_of_run {tr : List (State ι α × Action ι α)} (h : Run (machine ι α) tr s) :
    Guarded s := by
  have hboth : Guarded s ∧ Ledger tr s := by
    refine Run.history (I := fun tr s => Guarded s ∧ Ledger tr s) ⟨⟨fun hb => (by cases hb),
      fun i hb => absurd hb.2 (by simp [machine]), fun i d hd => (by cases hd),
      fun i d j hd => by cases hd⟩, Ledger.init⟩ (fun tr u a v hu hs => ?_) h
    exact ⟨guarded_step hu.1 hu.2.inv hu.2.contexts hs, hu.2.step hs⟩
  exact hboth.1

section Live
variable {tr : List (State ι α × Action ι α)} (h : Run (machine ι α) tr s)
include h

theorem deque_of_worker {i : ℕ} (hw : s.worker i ≠ .off) : ∃ d, s.deque i = some d := by
  have hinv := (ledger_of_run h).inv
  exact (guarded_of_run h).made i ((hinv.contexts hw).2 i (hinv.lt hw))

/-- A worker that runs sees the `workers_` of this call of `run`. -/
theorem size_of_worker {i : ℕ} (hw : s.worker i ≠ .off) : u32 s.size = s.numWorkers := by
  have hinv := (ledger_of_run h).inv
  rw [(guarded_of_run h).sized (hinv.contexts hw).1]
  exact Nat.mod_eq_of_lt hinv.small

theorem pop_enabled {i : ℕ} (rng : ℕ) (hw : s.worker i = .pop) :
    (step s (.worker i rng)).isSome := by
  obtain ⟨d, hd⟩ := deque_of_worker h (i := i) (by simp [hw])
  obtain ⟨r, hp⟩ := Option.isSome_iff_exists.mp (popStep_enabled d)
  simp [step, hw, workerStep, hd, hp]

theorem steal_enabled {i start attempt : ℕ} (rng : ℕ) (hw : s.worker i = .steal start attempt) :
    (step s (.worker i rng)).isSome := by
  have hinv := (ledger_of_run h).inv
  have hon : s.worker i ≠ .off := by simp [hw]
  by_cases hlt : attempt < u32 s.size - 1
  · have hv : victim (u32 s.size) i start attempt < u32 s.size := victim_lt hlt
    rw [size_of_worker h hon] at hv
    obtain ⟨d, hd⟩ := (guarded_of_run h).made _ ((hinv.contexts hon).2 _ hv)
    obtain ⟨r, hp⟩ := Option.isSome_iff_exists.mp (stealStep_enabled d i)
    rw [← size_of_worker h hon] at hd
    simp [step, hw, workerStep, hlt, hd, hp]
  · simp [step, hw, workerStep, hlt]

theorem push_enabled {t : Thread ι} {wid : ℤ} {task : α}
    (hc : s.call t = some (.pushLocal wid task)) : (step s (.call t)).isSome := by
  obtain ⟨i, rfl, hwid, hrun⟩ := (ledger_of_run h).inv.local_worker hc rfl
  obtain ⟨d, hd⟩ := deque_of_worker h (i := i) fun hoff => by
    rw [hoff] at hrun
    cases hrun
  obtain ⟨r, hp⟩ := Option.isSome_iff_exists.mp (pushStep_enabled d task)
  simp [step, hc, submitStep, hwid, hd, hp]

/-- `workers_[0]` exists unless `run(0)` was called. -/
theorem drain_enabled (hr : s.run = .drain) :
    (step s .runner).isSome ↔ s.injectQueue = [] ∨ 0 < s.numWorkers := by
  cases hq : s.injectQueue with
  | nil => simp [step, hr, runStep, hq]
  | cons task rest =>
    constructor
    · intro hs
      obtain ⟨u, hs⟩ := Option.isSome_iff_exists.mp hs
      simp only [step, hr, runStep, hq, Option.bind_eq_some_iff] at hs
      obtain ⟨d, hd, -⟩ := hs
      exact .inr ((ledger_of_run h).contexts.built hd).1
    · intro hpos
      obtain ⟨d, hd⟩ :=
        (guarded_of_run h).made 0 ⟨hpos.resolve_left (by simp), by rw [hr]; trivial⟩
      obtain ⟨r, hp⟩ := Option.isSome_iff_exists.mp (pushStep_enabled d task)
      simp [step, hr, runStep, hq, hd, hp]

/-- Every thread has left the deques that `workers_.clear()` destroys. -/
theorem quiescent_of_clear (hr : s.run = .clear ∨ s.run = .clearEnd) {i : ℕ}
    {d : Deque.State ℕ α} (hd : s.deque i = some d) : Deque.Quiescent d := by
  have hinv := (ledger_of_run h).inv
  have hoff : ∀ i, s.worker i = .off := fun i =>
    hinv.off i fun hact => by rcases hr with hr | hr <;> simp [Active, hr] at hact
  refine ⟨hinv.idle (by simp [hoff]) (fun wid task hc => ?_) (fun _ hdrain => ?_) hd,
    fun j => (guarded_of_run h).idle (by simp [hoff]) hd⟩
  · rw [hinv.quiet i (by rw [hoff i]; rfl)] at hc
    cases hc
  · rw [hdrain] at hr
    rcases hr with hr | hr <;> cases hr

end Live

/-- The deques outlive the calls inside them. A pop and a steal of a worker and a push of a
`submit` always find their deque, and so do those of `run` unless it was called with no workers
while tasks were in `inject_queue_`. When `workers_.clear()` destroys a deque no call is in
progress there, its destructor deletes no task, and it frees each array that was ever allocated
in the deque once. -/
theorem deques_outlive_calls {tr : List (State ι α × Action ι α)}
    (h : Run (machine ι α) tr s) :
    (∀ i rng, s.worker i = .pop ∨ (∃ start attempt, s.worker i = .steal start attempt) →
        (step s (.worker i rng)).isSome) ∧
      (∀ t wid task, s.call t = some (.pushLocal wid task) → (step s (.call t)).isSome) ∧
      (s.run = .drain → ((step s .runner).isSome ↔ s.injectQueue = [] ∨ 0 < s.numWorkers)) ∧
      (s.run = .clear ∨ s.run = .clearEnd → ∀ i d, s.deque i = some d → Deque.Quiescent d ∧
        Deque.deleted d.mem = [] ∧
        (Deque.freed d.mem).Perm (List.range d.mem.allocated)) := by
  refine ⟨fun i rng hw => ?_, fun t wid task hc => push_enabled h hc, drain_enabled h,
    fun hr i d hd => ?_⟩
  · rcases hw with hw | ⟨start, attempt, hw⟩
    · exact pop_enabled h rng hw
    · exact steal_enabled h rng hw
  · have hquiet := quiescent_of_clear h hr hd
    obtain ⟨tr', hrun⟩ := (guarded_of_run h).reach i d hd
    refine ⟨hquiet, ?_, Deque.freed_perm hrun hquiet.1⟩
    rw [Deque.deleted_eq ((ledger_of_run h).inv.deque i d hd) hquiet.1, items_of_cleared h hr hd]
    rfl

end Steps

/-- A run of one task, up to the destruction of the deque. -/
theorem deques_outlive_calls_one_task :
    ∃ s d, exec (machine (Fin 1) ℕ) (machine (Fin 1) ℕ).init oneTaskSchedule.dropLast = some s ∧
      s.run = .clearEnd ∧ s.deque 0 = some d ∧ Deque.Quiescent d ∧ Deque.deleted d.mem = [] := by
  have hen : (exec (machine (Fin 1) ℕ) (machine (Fin 1) ℕ).init oneTaskSchedule.dropLast).any
      fun s => decide (s.run = .clearEnd ∧ (s.deque 0).isSome) := by decide
  obtain ⟨s, hs, hend⟩ := (Option.any_eq_true _ _).mp hen
  obtain ⟨hrun, hsome⟩ := of_decide_eq_true hend
  obtain ⟨d, hd⟩ := Option.isSome_iff_exists.mp hsome
  obtain ⟨hquiet, hdel, -⟩ := (deques_outlive_calls (exec_steps hs)).2.2.2 (.inr hrun) 0 d hd
  exact ⟨s, d, hs, hrun, hd, hquiet, hdel⟩

end TaskScheduler.StealingDeques
