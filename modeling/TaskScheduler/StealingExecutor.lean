import TaskScheduler.Executor
import TaskScheduler.StealingLedger

/-!
# WorkStealingScheduler is an executor

One thread submits tasks from outside, then it calls `run` once; every task may submit more, to
the deque of its worker.
-/
namespace TaskScheduler.StealingDeques
open Transition TaskPool Executor
open WorkStealing (SubmitPc WorkerPc RunPc restTasks)

variable {α : Type*}

/-- The caller of `run`: it submits before that, and calls it with `n` workers when its last
`submit` has returned. -/
def host (n : ℕ) (phase : Phase) (s : State Unit α) :
    Action Unit α → Option (Action Unit α × Phase)
  | .submit (.outside o) task =>
    if phase = .before then some (.submit (.outside o) task, phase) else none
  | .submit (.worker i) task => some (.submit (.worker i) task, phase)
  | .call t => some (.call t, phase)
  | .worker i rng => some (.worker i rng, phase)
  | .finish i => some (.finish i, phase)
  | .run m =>
    if phase = .before ∧ m = n ∧ (s.call (.outside ())).isNone then some (.run m, .running)
    else none
  | .runner => some (.runner, if s.run = .clearEnd then .after else phase)

/-- The task that the worker runs. -/
def taskOf : WorkerPc α → Option α
  | .running x => some x
  | _ => none

/-- The scheduler as its caller and its tasks see it. A call of `submit` or `run` begins where its
arguments are known, and a task begins where a pop or a steal returns it. -/
def executor (n : ℕ) (α : Type*) : View (State Unit α × Phase) (Action Unit α) ℕ α where
  machine := (machine Unit α).drive .before (host n)
  event := fun (s, _) => fun
    | .submit (.outside _) task => some (.submit task)
    | .submit (.worker i) task => some (.spawn i task)
    | .finish i => some (.finish i)
    | .run _ => some .run
    | .worker i rng => (started s (.worker i rng)).map (.start i)
    | .runner => if s.run = .clearEnd then some .ret else none
    | .call _ => none
  current := fun (s, _) i => taskOf (s.worker i)
  phase := fun (_, phase) => phase
  free := fun (s, _) => fun
    | none => (s.call (.outside ())).isNone
    | some i => (s.call (.worker i)).isNone

/-- What holds under the caller of `run`: nothing is left when `run` has seen `pending_` at
zero. -/
structure Hosted (n : ℕ) (s : State Unit α) (ph : Phase) : Prop where
  crew : s.numWorkers ≤ n
  phase : ph = .running ↔ s.run ≠ .idle
  outside : ph ≠ .before → s.call (.outside ()) = none
  done : s.run.settled → s.load = 0

section Steps
variable {n : ℕ} {s u : State Unit α} {ph ph' : Phase} {k : Action Unit α} {i rng : ℕ}

theorem host_label {phase : Phase} {r : Action Unit α × Phase}
    (h : host n phase s k = some r) : r.1 = k := by
  cases k with
  | submit t task =>
    cases t <;> simp only [host] at h <;> (try split_ifs at h) <;>
      exact (congrArg Prod.fst (Option.some.inj h)).symm
  | _ =>
    simp only [host] at h
    (try split_ifs at h) <;> exact (congrArg Prod.fst (Option.some.inj h)).symm

theorem host_step {s u : State Unit α × Phase}
    (h : (executor n α).machine.step s k = some u) :
    host n s.2 s.1 k = some (k, u.2) ∧ step s.1 k = some u.1 := by
  obtain ⟨a, ha, hs⟩ := drive_step h
  obtain rfl := host_label ha
  exact ⟨ha, hs⟩

/-- A step of a worker between two tasks. -/
theorem worker_spec (hs : step s (.worker i rng) = some u) :
    ∃ v pc, workerStep s i rng (s.worker i) = some (v, pc) ∧ u = v.setWorker i pc ∧
      s.worker i ≠ .off ∧ taskOf (s.worker i) = none ∧ v.run = s.run ∧
      v.numWorkers = s.numWorkers ∧ v.worker = s.worker ∧ v.call = s.call := by
  simp only [step, Option.map_eq_some_iff, Prod.exists] at hs
  obtain ⟨v, pc, hv, rfl⟩ := hs
  refine ⟨v, pc, hv, rfl, ?_⟩
  cases hw : s.worker i with
  | pop =>
    simp only [hw, workerStep, Option.bind_eq_some_iff, Option.map_eq_some_iff, Prod.mk.injEq] at hv
    obtain ⟨d, -, r, -, rfl, -⟩ := hv
    exact ⟨by simp, rfl, rfl, rfl, rfl, rfl⟩
  | steal start attempt =>
    simp only [hw, workerStep] at hv
    split_ifs at hv
    · simp only [Option.bind_eq_some_iff, Option.map_eq_some_iff, Prod.mk.injEq] at hv
      obtain ⟨d, -, r, -, rfl, -⟩ := hv
      exact ⟨by simp, rfl, rfl, rfl, rfl, rfl⟩
    · cases hv
      exact ⟨by simp, rfl, rfl, rfl, rfl, rfl⟩
  | off => simp [hw, workerStep] at hv
  | running task => simp [hw, workerStep] at hv
  | exited => simp [hw, workerStep] at hv
  | _ =>
    rw [hw] at hv
    cases hv
    exact ⟨by simp, rfl, rfl, rfl, rfl, rfl⟩

theorem started_worker {v : State Unit α} {pc : WorkerPc α}
    (hv : workerStep s i rng (s.worker i) = some (v, pc)) :
    started s (.worker i rng) = taskOf pc := by
  simp only [started, hv]
  cases pc <;> rfl

theorem tasks_eq (pc : WorkerPc α) : pc.tasks = ((taskOf pc).toList : Multiset α) := by
  cases pc <;> rfl

theorem finish_spec (hs : step s (.finish i) = some u) :
    ∃ x pc, s.worker i = .running x ∧ taskOf pc = none ∧
      u = { s with pending := s.pending - 1 }.setWorker i pc := by
  simp only [step] at hs
  split at hs
  · rename_i x hw _
    cases hs
    exact ⟨x, _, hw, by split_ifs <;> rfl, rfl⟩
  · cases hs

/-- A step of a `submit` stays within the members and the deques. -/
theorem call_spec {t : Thread Unit} (hs : step s (.call t) = some u) :
    ∃ pc v rest, s.call t = some pc ∧ submitStep s t pc = some (v, rest) ∧ u = v.setCall t rest ∧
      v.run = s.run ∧ v.numWorkers = s.numWorkers ∧ v.worker = s.worker ∧ v.call = s.call := by
  simp only [step] at hs
  split at hs
  · cases hs
  · rename_i pc hc
    obtain ⟨⟨v, rest⟩, hv, rfl⟩ := Option.map_eq_some_iff.mp hs
    refine ⟨pc, v, rest, hc, hv, rfl, ?_⟩
    cases pc with
    | check task =>
      simp only [submitStep] at hv
      split_ifs at hv <;> cases hv <;> exact ⟨rfl, rfl, rfl, rfl⟩
    | lock task =>
      simp only [submitStep] at hv
      split_ifs at hv
      cases hv
      exact ⟨rfl, rfl, rfl, rfl⟩
    | pushLocal wid task =>
      simp only [submitStep, Option.bind_eq_some_iff, Option.map_eq_some_iff, Prod.mk.injEq] at hv
      obtain ⟨d, -, r, -, rfl, -⟩ := hv
      exact ⟨rfl, rfl, rfl, rfl⟩
    | _ =>
      cases hv
      exact ⟨rfl, rfl, rfl, rfl⟩

theorem taskOf_setWorker {v : State Unit α} {pc : WorkerPc α}
    (hpc : taskOf pc = taskOf (v.worker i)) (j : ℕ) :
    taskOf ((v.setWorker i pc).worker j) = taskOf (v.worker j) := by
  rcases eq_or_ne j i with rfl | hne
  · rwa [setWorker_worker, Function.update_self]
  · rw [setWorker_worker, Function.update_of_ne hne]

/-- What `run` leaves alone, and how it gets past its wait loop. -/
structure Runs (s u : State Unit α) : Prop where
  call : u.call = s.call
  crew : u.numWorkers = s.numWorkers
  tasks : ∀ j, taskOf (u.worker j) = taskOf (s.worker j)
  begun : s.run ≠ .idle
  ended : u.run = .idle ↔ s.run = .clearEnd
  settled : u.run.settled → s.run.settled ∨ ¬ s.pending > 0

theorem runner_spec (hi : Inv s) (hs : step s .runner = some u) : Runs s u := by
  simp only [step] at hs
  cases hr : s.run with
  | idle => simp [hr, runStep] at hs
  | build j =>
    simp only [hr, runStep] at hs
    split_ifs at hs <;> cases hs <;>
    exact ⟨rfl, rfl, fun _ => rfl, by simp [hr], by simp [hr], by simp [RunPc.settled]⟩
  | lockDrain =>
    simp only [hr, runStep] at hs
    split_ifs at hs
    cases hs
    exact ⟨rfl, rfl, fun _ => rfl, by simp [hr], by simp [hr], by simp [RunPc.settled]⟩
  | drain =>
    simp only [hr, runStep] at hs
    cases hq : s.injectQueue with
    | nil =>
      simp only [hq, Option.some.injEq] at hs
      subst hs
      exact ⟨rfl, rfl, fun _ => rfl, by simp [hr], by simp [hr], by simp [RunPc.settled]⟩
    | cons task rest =>
      simp only [hq, Option.bind_eq_some_iff, Option.map_eq_some_iff] at hs
      obtain ⟨d, -, r, -, rfl⟩ := hs
      exact ⟨rfl, rfl, fun _ => rfl, by simp [hr], by simp [hr], by simp [hr, RunPc.settled]⟩
  | launch j =>
    simp only [hr, runStep] at hs
    split_ifs at hs with hj <;> cases hs
    · have hoff : s.worker j = .off := hi.off j fun hact => by simp [Active, hr] at hact
      exact ⟨rfl, rfl, taskOf_setWorker (by rw [hoff]; rfl), by simp [hr], by simp [hr],
        by simp [RunPc.settled]⟩
    · exact ⟨rfl, rfl, fun _ => rfl, by simp [hr], by simp [hr], by simp [RunPc.settled]⟩
  | wait =>
    simp only [hr, runStep] at hs
    split_ifs at hs with hp <;> cases hs
    · exact ⟨rfl, rfl, fun _ => rfl, by simp [hr], by simp [hr], by simp [hr, RunPc.settled]⟩
    · exact ⟨rfl, rfl, fun _ => rfl, by simp [hr], by simp [hr], fun _ => .inr hp⟩
  | join j =>
    simp only [hr, runStep] at hs
    split_ifs at hs with hj hex <;> cases hs
    · have hnone : taskOf (.off : WorkerPc α) = taskOf (s.worker j) := by
        cases hw : s.worker j <;> simp_all [WorkerPc.isExited, taskOf]
      exact ⟨rfl, rfl, taskOf_setWorker hnone, by simp [hr], by simp [hr],
        by simp [hr, RunPc.settled]⟩
    · exact ⟨rfl, rfl, fun _ => rfl, by simp [hr], by simp [hr], by simp [hr, RunPc.settled]⟩
  | _ =>
    simp only [hr, runStep, Option.some.injEq] at hs
    subst hs
    exact ⟨rfl, rfl, fun _ => rfl, by simp [hr], by simp [hr], by simp [hr, RunPc.settled]⟩

/-- A worker that is not `off` exists only while `run` is running. -/
theorem Hosted.on (h : Hosted n s ph) (hi : Inv s) (hw : s.worker i ≠ .off) :
    ph = .running ∧ i < n := by
  refine ⟨h.phase.mpr fun hidle => ?_, (hi.lt hw).trans_le h.crew⟩
  have hact := (hi.active hw).2
  rw [hidle] at hact
  exact hact

theorem hosted_init : Hosted n (machine Unit α).init .before where
  crew := Nat.zero_le n
  phase := by simp [machine]
  outside h := absurd rfl h
  done h := by cases h

/-- With nothing left, only the thread outside can count a task in. -/
theorem not_submitted (hi : Inv s) (hload : s.load = 0) (hout : s.call (.outside ()) = none)
    (t : Thread Unit) : s.call t = none := by
  cases t with
  | outside o => exact hout
  | worker i =>
    have hheld : s.held = 0 := (add_eq_zero.mp (add_eq_zero.mp hload).1).2
    by_cases hlt : i < s.numWorkers
    · exact hi.quiet i (not_running_of_held hheld hlt)
    · refine hi.quiet i ?_
      rw [hi.off i fun hact => hlt hact.1]
      rfl

theorem hosted_step {tr : List (State Unit α × Action Unit α)} (hl : Ledger tr s)
    (h : Hosted n s ph) (ha : host n ph s k = some (k, ph')) (hs : step s k = some u) :
    Hosted n u ph' := by
  have hph : ∀ {c : Phase}, some (k, c) = some (k, ph') → c = ph' := fun h =>
    (Prod.mk.inj (Option.some.inj h)).2
  have hi := hl.inv
  have hm := step_moves hl.contexts hi hl.settled hs
  -- Nothing comes in where nothing is left.
  have hzero : submitted s k = none → s.load = 0 → u.load = 0 := by
    intro hsub hload
    have htasks := hm.tasks
    rw [hsub, hload] at htasks
    exact (add_eq_zero.mp htasks).1
  cases k with
  | submit t task =>
    simp only [step] at hs
    split_ifs at hs with hcan
    cases hs
    cases t with
    | outside o =>
      simp only [host] at ha
      split_ifs at ha with hb
      obtain rfl := hph ha
      exact ⟨h.crew, h.phase, fun hne => absurd hb hne, fun hset => hzero rfl (h.done hset)⟩
    | worker i =>
      obtain rfl := hph ha
      refine ⟨h.crew, h.phase, fun hne => ?_, fun hset => hzero rfl (h.done hset)⟩
      rw [setCall_call, Function.update_of_ne (by simp)]
      exact h.outside hne
  | call t =>
    obtain rfl := hph ha
    obtain ⟨pc, v, rest, hc, hv, rfl, hr, hn, hw, hcall⟩ := call_spec hs
    have hout : ph ≠ .before → t ≠ .outside () := by
      rintro hne rfl
      rw [h.outside hne] at hc
      cases hc
    refine ⟨hn ▸ h.crew, ?_, fun hne => ?_, fun hset => ?_⟩
    · rw [h.phase]
      exact not_congr (by rw [setCall_run, hr])
    · rw [setCall_call, Function.update_of_ne (hout hne).symm, hcall]
      exact h.outside hne
    · have hset' : s.run.settled := by
        rw [← hr]
        exact hset
      have hrun : ph = .running := h.phase.mpr fun hidle => by rw [hidle] at hset'; cases hset'
      rw [not_submitted hi (h.done hset') (h.outside (by simp [hrun])) t] at hc
      cases hc
  | worker i rng =>
    obtain rfl := hph ha
    obtain ⟨v, pc, hv, rfl, hon, -, hr, hn, hw, hcall⟩ := worker_spec hs
    refine ⟨hn ▸ h.crew, ?_, fun hne => ?_, fun hset => hzero rfl (h.done ?_)⟩
    · rw [h.phase]
      exact not_congr (by rw [setWorker_run, hr])
    · rw [setWorker_call, hcall]
      exact h.outside hne
    · rw [← hr]
      exact hset
  | finish i =>
    obtain rfl := hph ha
    obtain ⟨x, pc, -, -, rfl⟩ := finish_spec hs
    exact ⟨h.crew, h.phase, h.outside, fun hset => hzero rfl (h.done hset)⟩
  | run m =>
    simp only [host] at ha
    split_ifs at ha with hb
    obtain rfl := hph ha
    simp only [step] at hs
    split at hs
    · split_ifs at hs
      cases hs
      exact ⟨hb.2.1.le, by simp, fun _ => by simpa using hb.2.2, fun hset => by cases hset⟩
    · cases hs
  | runner =>
    have hp : (if s.run = .clearEnd then Phase.after else ph) = ph' := hph ha
    have hspec := runner_spec hi hs
    have hrun : ph = .running := h.phase.mpr hspec.begun
    refine ⟨hspec.crew ▸ h.crew, ?_, fun _ => ?_, fun hset => ?_⟩
    · rw [← hp, ne_eq, hspec.ended]
      split_ifs with hend <;> simp [hend, hrun]
    · rw [hspec.call]
      exact h.outside (by simp [hrun])
    · refine hzero rfl ?_
      rcases hspec.settled hset with hs' | hle
      · exact h.done hs'
      · have hpend := hl.pending_eq_card
        exact Multiset.card_eq_zero.mp (by omega)

/-- The task of a `submit` that has not been counted in. -/
def promised : Option (SubmitPc α) → Multiset α
  | some (.check task) | some (.addLocal _ task) | some (.lock task) | some (.addInject task) =>
    {task}
  | some (.pushLocal _ _) | some (.pushInject _) | none => 0

def State.promised (n : ℕ) (s : State Unit α) : Multiset α :=
  ∑ t ∈ clients Unit n, StealingDeques.promised (s.call t)

theorem Hosted.mem_clients (h : Hosted n s ph) (hi : Inv s) {t : Thread Unit}
    (ht : ∀ i, t = .worker i → (s.worker i).isRunning) : t ∈ clients Unit n := by
  cases t with
  | outside o => exact mem_clients_outside o
  | worker i =>
    refine mem_clients_worker (h.on hi fun hoff => ?_).2
    have hrun := ht i rfl
    rw [hoff] at hrun
    cases hrun

theorem submitStep_promised {t : Thread Unit} {pc : SubmitPc α} {v : State Unit α}
    {rest : Option (SubmitPc α)} (hc : s.call t = some pc) (hv : submitStep s t pc = some (v, rest)) :
    promised rest + ((submitted s (.call t)).toList : Multiset α) = promised (some pc) := by
  simp only [submitted, hc]
  cases pc with
  | check task =>
    simp only [submitStep] at hv
    split_ifs at hv <;> cases hv <;> rfl
  | lock task =>
    simp only [submitStep] at hv
    split_ifs at hv
    cases hv
    rfl
  | pushLocal wid task =>
    simp only [submitStep, Option.bind_eq_some_iff, Option.map_eq_some_iff, Prod.mk.injEq] at hv
    obtain ⟨d, -, r, -, -, rfl⟩ := hv
    split_ifs <;> rfl
  | _ =>
    cases hv
    rfl

theorem called_view (s : State Unit α) (ph : Phase) (k : Action Unit α) :
    (executor n α).called (s, ph) k =
      match k with
      | .submit _ task => some task
      | _ => none := by
  cases k with
  | submit t task => cases t <;> rfl
  | worker i rng =>
    change ((started s (.worker i rng)).map (Event.start i)).bind Event.called = _
    cases started s (.worker i rng) <;> rfl
  | runner =>
    change (if s.run = .clearEnd then some (.ret : Event ℕ α) else none).bind Event.called = _
    split_ifs <;> rfl
  | _ => rfl

theorem started_view (s : State Unit α) (ph : Phase) (k : Action Unit α) :
    (executor n α).started (s, ph) k = started s k := by
  cases k with
  | submit t task => cases t <;> rfl
  | worker i rng =>
    change ((started s (.worker i rng)).map (Event.start i)).bind Event.started = _
    cases started s (.worker i rng) <;> rfl
  | runner =>
    change (if s.run = .clearEnd then some (.ret : Event ℕ α) else none).bind Event.started = _
    split_ifs <;> rfl
  | _ => rfl

/-- What is promised changes by what is handed over and what is counted in. -/
theorem promised_step (h : Hosted n s ph) (hi : Inv s) (hs : step s k = some u) :
    u.promised n + ((submitted s k).toList : Multiset α) =
      s.promised n + (((executor n α).called (s, ph) k).toList : Multiset α) := by
  rw [called_view]
  have hsame : u.call = s.call → u.promised n + 0 = s.promised n + 0 := fun hc => by
    rw [State.promised, State.promised, hc]
  cases k with
  | submit t task =>
    simp only [step] at hs
    split_ifs at hs with hcan
    cases hs
    have hnone : s.call t = none := by cases t <;> simp_all [canSubmit]
    have hrun : ∀ i, t = .worker i → (s.worker i).isRunning := by
      rintro i rfl
      simp only [canSubmit, Bool.and_eq_true] at hcan
      exact hcan.1
    exact Counting.sum_move (w := promised) (h.mem_clients hi hrun) (by rw [hnone]; exact add_comm _ _)
  | call t =>
    obtain ⟨pc, v, rest, hc, hv, rfl, -, -, -, hcall⟩ := call_spec hs
    have hrun : ∀ i, t = .worker i → (s.worker i).isRunning := by
      rintro i rfl
      by_contra hr
      rw [hi.quiet i (by simpa using hr)] at hc
      cases hc
    rw [State.promised, setCall_call, hcall]
    exact Counting.sum_move (w := promised) (h.mem_clients hi hrun)
      (by rw [hc, submitStep_promised hc hv]; exact (add_zero _).symm)
  | worker i rng =>
    obtain ⟨v, pc, -, rfl, -, -, -, -, -, hcall⟩ := worker_spec hs
    exact hsame hcall
  | finish i =>
    obtain ⟨x, pc, -, -, rfl⟩ := finish_spec hs
    exact hsame rfl
  | run m =>
    simp only [step] at hs
    split at hs
    · split_ifs at hs
      cases hs
      exact hsame rfl
    · cases hs
  | runner => exact hsame (runner_spec hi hs).call

/-- What the workers run changes by what they start and complete. -/
theorem inHand_step (hi : Inv s) (hs : step s k = some u) :
    inHand u.numWorkers u.worker + ((completed s k).toList : Multiset α) =
      inHand s.numWorkers s.worker + ((started s k).toList : Multiset α) := by
  have hsame : u.numWorkers = s.numWorkers → u.worker = s.worker →
      inHand u.numWorkers u.worker + 0 = inHand s.numWorkers s.worker + 0 := fun hn hw => by
    rw [hn, hw]
  cases k with
  | submit t task =>
    simp only [step] at hs
    split_ifs at hs
    cases hs
    exact hsame rfl rfl
  | call t =>
    obtain ⟨pc, v, rest, -, -, rfl, -, hn, hw, -⟩ := call_spec hs
    exact hsame hn hw
  | worker i rng =>
    obtain ⟨v, pc, hv, rfl, hon, hnone, -, hn, hw, -⟩ := worker_spec hs
    rw [started_worker hv, setWorker_numWorkers, setWorker_worker, hn, hw]
    refine Counting.sum_move (w := WorkerPc.tasks) (Finset.mem_range.mpr (hi.lt hon)) ?_
    rw [tasks_eq, tasks_eq, hnone]
    exact add_comm _ _
  | finish i =>
    obtain ⟨x, pc, hw, hpc, rfl⟩ := finish_spec hs
    have hcomp : completed s (.finish i) = some x := by simp only [completed, hw]
    rw [hcomp]
    refine Counting.sum_move (w := WorkerPc.tasks)
      (Finset.mem_range.mpr (hi.lt (i := i) (by simp [hw]))) ?_
    rw [tasks_eq, hpc, hw]
    exact add_comm _ _
  | run m =>
    simp only [step] at hs
    split at hs
    · rename_i hr
      split_ifs at hs
      cases hs
      have hoff : ∀ i, s.worker i = .off := fun i => hi.off i (by simp [Active, hr])
      exact congrArg (· + 0) ((inHand_of_off hoff).trans (inHand_of_off hoff).symm)
    · cases hs
  | runner =>
    have hspec := runner_spec hi hs
    change inHand u.numWorkers u.worker + 0 = inHand s.numWorkers s.worker + 0
    simp only [inHand, tasks_eq, hspec.crew, hspec.tasks]

/-- The laws of one step. -/
theorem changes_step (hi : Inv s) (h : Hosted n s ph) (ha : host n ph s k = some (k, ph'))
    (hs : step s k = some u) : (executor n α).Changes (Finset.range n) (s, ph) (u, ph')
      ((executor n α).event (s, ph) k) := by
  have hph : ∀ {c : Phase}, some (k, c) = some (k, ph') → ph' = c := fun h =>
    (Prod.mk.inj (Option.some.inj h)).2.symm
  have hset : ∀ (v : State Unit α) (i : ℕ) (pc : WorkerPc α), v.worker = s.worker →
      (fun j => taskOf ((v.setWorker i pc).worker j)) =
        Function.update (fun j => taskOf (s.worker j)) i (taskOf pc) := by
    intro v i pc hv
    funext j
    rcases eq_or_ne j i with rfl | hne
    · simp
    · simp [Function.update_of_ne hne, hv]
  cases k with
  | submit t task =>
    simp only [step] at hs
    split_ifs at hs with hcan
    cases hs
    cases t with
    | outside o =>
      simp only [host] at ha
      split_ifs at ha with hb
      exact ⟨hb, rfl, (hph ha).trans hb⟩
    | worker i =>
      refine ⟨?_, rfl, hph ha⟩
      simp only [canSubmit, Bool.and_eq_true] at hcan
      cases hw : s.worker i <;> simp_all [executor, WorkerPc.isRunning, taskOf]
  | call t =>
    obtain ⟨pc, v, rest, -, -, rfl, -, -, hw, -⟩ := call_spec hs
    exact ⟨funext fun j => congrArg taskOf (congrFun hw j), hph ha⟩
  | worker i rng =>
    obtain ⟨v, pc, hv, rfl, hon, hnone, -, -, hw, -⟩ := worker_spec hs
    obtain ⟨hrun, hlt⟩ := h.on hi hon
    have hevent : (executor n α).event (s, ph) (.worker i rng) = (taskOf pc).map (.start i) :=
      congrArg (Option.map (Event.start i)) (started_worker hv)
    rw [hevent]
    cases hpc : taskOf pc with
    | none =>
      refine ⟨funext fun j => ?_, hph ha⟩
      have hfix := taskOf_setWorker (v := v) (i := i) (by rw [hpc, hw, hnone]) j
      rw [hw] at hfix
      exact hfix
    | some x =>
      have hcur := hset v i pc hw
      rw [hpc] at hcur
      exact ⟨hrun, Finset.mem_range.mpr hlt, hnone, hcur, (hph ha).trans hrun⟩
  | finish i =>
    obtain ⟨x, pc, hw, hpc, rfl⟩ := finish_spec hs
    have hcur := hset { s with pending := s.pending - 1 } i pc rfl
    rw [hpc] at hcur
    exact ⟨by simp [executor, hw, taskOf], hcur, hph ha⟩
  | run m =>
    simp only [host] at ha
    split_ifs at ha with hb
    simp only [step] at hs
    split at hs
    · split_ifs at hs
      cases hs
      exact ⟨hb.1, rfl, hph ha⟩
    · cases hs
  | runner =>
    have hspec := runner_spec hi hs
    have hrun : ph = .running := h.phase.mpr hspec.begun
    have hp := hph ha
    have hcur : (executor n α).current (u, ph') = (executor n α).current (s, ph) :=
      funext hspec.tasks
    change (executor n α).Changes _ _ _ (if s.run = .clearEnd then some .ret else none)
    split_ifs at hp ⊢
    · exact ⟨hrun, hcur, hp⟩
    · exact ⟨hcur, hp⟩

theorem clearEnd_of_ret (he : (executor n α).event (s, ph) k = some .ret) : s.run = .clearEnd := by
  cases k with
  | submit t task => cases t <;> cases he
  | runner =>
    by_contra hr
    rw [show (executor n α).event (s, ph) .runner = none from if_neg hr] at he
    cases he
  | worker i rng =>
    obtain ⟨x, -, hx⟩ := Option.map_eq_some_iff.mp he
    cases hx
  | _ => cases he

end Steps

section Runs
variable {n : ℕ} {s : State Unit α × Phase} {tr : List ((State Unit α × Phase) × Action Unit α)}

/-- A run under the caller, against the record of the scheduler. -/
structure Served (n : ℕ) (tr : List ((State Unit α × Phase) × Action Unit α))
    (s : State Unit α × Phase) : Prop where
  ledger : Ledger (driven (host n) tr) s.1
  hosted : Hosted n s.1 s.2
  called : (log (executor n α).called tr : Multiset α) =
    log submitted (driven (host n) tr) + s.1.promised n
  started : (log (executor n α).started tr : Multiset α) =
    log completed (driven (host n) tr) + inHand s.1.numWorkers s.1.worker

theorem served_init : Served n [] (executor n α).machine.init where
  ledger := show Ledger [] (machine Unit α).init from Ledger.init
  hosted := hosted_init
  called := by
    have hnone : (machine Unit α).init.promised n = 0 := Finset.sum_eq_zero fun _ _ => rfl
    change (0 : Multiset α) = 0 + (machine Unit α).init.promised n
    rw [hnone, add_zero]
  started := by
    have hnone : inHand 0 (machine Unit α).init.worker = 0 := inHand_of_off fun _ => rfl
    change (0 : Multiset α) = 0 + inHand 0 (machine Unit α).init.worker
    rw [hnone, add_zero]

theorem served_of_run (h : Run (executor n α).machine tr s) : Served n tr s := by
  refine Run.history (I := Served n) served_init (fun tr s k u hu hs => ?_) h
  obtain ⟨ha, hstep⟩ := host_step hs
  have hi := hu.ledger.inv
  have hpromised := promised_step hu.hosted hi hstep
  have hhand := inHand_step hi hstep
  refine ⟨?_, hosted_step hu.ledger hu.hosted ha hstep, ?_, ?_⟩
  · rw [driven_snoc _ ha]
    exact hu.ledger.step hstep
  · rw [driven_snoc _ ha, log_snoc, log_snoc, ← Multiset.coe_add, ← Multiset.coe_add, hu.called,
      add_assoc, ← hpromised]
    abel
  · rw [driven_snoc _ ha, log_snoc, log_snoc, ← Multiset.coe_add, ← Multiset.coe_add, hu.started,
      started_view, add_assoc, ← hhand]
    abel

/-- The tasks that have been handed over have begun, or wait. -/
theorem Served.called_eq (h : Served n tr s) : (log (executor n α).called tr : Multiset α) =
    log (executor n α).started tr + (s.1.injectQueue + stock s.1.numWorkers s.1.deque +
      inFlight s.1.numWorkers s.1.call + s.1.promised n) := by
  rw [h.called, h.started, h.ledger.tasks, State.load, State.held]
  abel

/-- WorkStealingScheduler obeys the laws of an executor, for any number of workers. -/
theorem lawful (n : ℕ) : (executor n α).Lawful (Finset.range n) fun _ => True where
  init := ⟨rfl, rfl⟩
  changes s a s' hr hs := by
    obtain ⟨tr, htr⟩ := hr
    have hserved := served_of_run htr
    obtain ⟨ha, hstep⟩ := host_step hs
    exact changes_step hserved.ledger.inv hserved.hosted ha hstep
  started_le tr s hr _ := by
    rw [(served_of_run hr).called_eq]
    exact Multiset.le_add_right _ _
  ret tr s a s' hr _ hs he := by
    have hserved := served_of_run hr
    have hi := hserved.ledger.inv
    have hend := clearEnd_of_ret he
    have hload := hserved.hosted.done (by rw [hend]; rfl)
    have hoff : ∀ i, s.1.worker i = .off := fun i => hi.off i (by simp [Active, hend])
    have hout := hserved.hosted.outside (by
      rw [hserved.hosted.phase.mpr (by simp [hend])]
      simp)
    have hcall := not_submitted hi hload hout
    have hpromised : s.1.promised n = 0 := Finset.sum_eq_zero fun t _ => by rw [hcall t]; rfl
    refine ⟨?_, fun i => by simp [executor, hoff i, taskOf]⟩
    rw [hserved.called, hserved.started, hserved.ledger.tasks, hload, hpromised, inHand_of_off hoff,
      add_zero, add_zero]

end Runs

end TaskScheduler.StealingDeques
