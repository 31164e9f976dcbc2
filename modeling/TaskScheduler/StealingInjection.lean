import TaskScheduler.StealingTermination

/-!
# The injection queue of WorkStealingScheduler

`run` empties `inject_queue_` once, before it launches the workers, and no worker looks
into it. A task that arrives there later is never run, and `run` waits for it forever.
-/
namespace TaskScheduler.WorkStealing
open Transition

variable {κ ι α : Type*}

/-- `run` has emptied `inject_queue_` and has not left its wait loop. -/
def RunPc.waiting : RunPc → Bool
  | .launch _ | .wait => true
  | _ => false

section Late
variable [DecidableEq κ]

def atInject (k : κ) : Option (κ × SubmitPc α) → Bool
  | some (k', .pushInject _) => k' = k
  | _ => false

/-- The step pushes to `inject_queue_` of instance `k` while its `run` waits. -/
def Late (k : κ) (s : State κ ι α) : Action κ ι α → Prop
  | .call t => (s.inst k).run.waiting ∧ atInject k (s.call t)
  | _ => False

instance (k : κ) (s : State κ ι α) : DecidablePred (Late k s)
  | .call _ => inferInstanceAs (Decidable (_ ∧ _))
  | .submit .. | .worker .. | .finish .. | .run .. | .runner .. => .isFalse id

end Late

/-- `run` waits for tasks, but no task is in a deque, on a worker or on its way. -/
def Stranded (k : κ) (s : State κ ι α) : Prop :=
  (s.inst k).run = .wait ∧ 0 < (s.inst k).pending ∧
    (∀ i l, (s.inst k).deque i = some l → l = []) ∧
    (∀ i, (s.worker (k, i)).isRunning = false) ∧
    ∀ t pc, s.call t = some (k, pc) → pc.tasks = 0

theorem submitStep_inject {m m' : Instance α} {tl : ℤ} {pc : SubmitPc α}
    {rest : Option (SubmitPc α)} (h : submitStep m tl pc = some (m', rest)) :
    m'.injectQueue = m.injectQueue ∨
      ∃ task, pc = .pushInject task ∧ m'.injectQueue = m.injectQueue ++ [task] := by
  cases pc with
  | check task =>
    simp only [submitStep] at h
    split_ifs at h <;> cases h <;> exact .inl rfl
  | addLocal wid task => cases h; exact .inl rfl
  | pushLocal wid task =>
    simp only [submitStep, Option.map_eq_some_iff, Prod.mk.injEq] at h
    obtain ⟨l, _, rfl, rfl⟩ := h
    exact .inl rfl
  | lock task =>
    simp only [submitStep] at h
    split_ifs at h
    cases h
    exact .inl rfl
  | addInject task => cases h; exact .inl rfl
  | pushInject task => cases h; exact .inr ⟨task, rfl, rfl⟩

/-- What a step that makes `m'` of the members `m` does to the wait of `run`: it begins with
an empty injection queue, ends where the counter is not positive, and in between only a
`late` push changes the queue. -/
structure WaitStep (m m' : Instance α) (late : Prop) : Prop where
  enter : m.run.waiting = false → m'.run.waiting → m'.injectQueue = []
  leave : m.run.waiting → m'.run.waiting ∨ m.pending ≤ 0
  queue : m.run.waiting → m'.injectQueue = m.injectQueue ∨ late ∧ m'.injectQueue ≠ []

theorem WaitStep.of_run {m m' : Instance α} {late : Prop} (hr : m'.run = m.run)
    (hq : m.run.waiting → m'.injectQueue = m.injectQueue ∨ late ∧ m'.injectQueue ≠ []) :
    WaitStep m m' late where
  enter hn hw := by
    rw [hr, hn] at hw
    cases hw
  leave hw := .inl (hr ▸ hw)
  queue := hq

theorem WaitStep.of_idle {m m' : Instance α} {late : Prop} (h : m.run.waiting = false)
    (h' : m'.run.waiting = false) : WaitStep m m' late := by
  refine ⟨fun _ hw => ?_, fun hw => ?_, fun hw => ?_⟩
  · rw [h'] at hw
    cases hw
  all_goals
    rw [h] at hw
    cases hw

theorem runStep_waitStep {m m' : Instance α} {late : Prop} (h : runStep m m.run = some m') :
    WaitStep m m' late := by
  cases hr : m.run with
  | drain =>
    have hm : m.run.waiting = false := by rw [hr]; rfl
    simp only [runStep, hr] at h
    cases hq : m.injectQueue with
    | nil =>
      simp only [hq, Option.some.injEq] at h
      subst h
      exact ⟨fun _ _ => rfl, fun hw => by simp [hm] at hw, fun hw => by simp [hm] at hw⟩
    | cons task rest =>
      simp only [hq, Option.map_eq_some_iff] at h
      obtain ⟨l, hl, rfl⟩ := h
      exact .of_idle hm hm
  | launch j =>
    simp only [runStep, hr] at h
    split_ifs at h
    cases h
    exact ⟨fun hw => (by rw [hr] at hw; cases hw), fun _ => .inl rfl, fun _ => .inl rfl⟩
  | wait =>
    simp only [runStep, hr] at h
    split_ifs at h with hp <;> cases h
    · exact .of_run rfl fun _ => .inl rfl
    · exact ⟨fun _ hw => (by cases hw), fun _ => .inr (not_lt.mp hp), fun _ => .inl rfl⟩
  | build j =>
    simp only [runStep, hr] at h
    split_ifs at h <;> cases h <;> exact .of_idle (by rw [hr]; rfl) rfl
  | lockDrain =>
    simp only [runStep, hr] at h
    split_ifs at h
    cases h
    exact .of_idle (by rw [hr]; rfl) rfl
  | join j =>
    simp only [runStep, hr] at h
    split_ifs at h
    cases h
    exact .of_idle (by rw [hr]; rfl) rfl
  | idle => simp [runStep, hr] at h
  | _ =>
    simp only [runStep, hr, Option.some.injEq] at h
    subst h
    exact .of_idle (by rw [hr]; rfl) rfl

section Step
variable [DecidableEq κ] [DecidableEq ι] {k : κ}

theorem step_waitStep {s s' : State κ ι α} {a : Action κ ι α} (h : Inv s)
    (hs : step s a = some s') : WaitStep (s.inst k) (s'.inst k) (Late k s a) := by
  rcases inst_step k hs with he | ⟨t, pc, rest, rfl, ht, hm'⟩ | ⟨i, rng, pc', rfl, hm'⟩ |
    ⟨i, rfl, he⟩ | ⟨n, rfl, hr, he⟩ | ⟨rfl, hm' | ⟨i, hr, he⟩ | ⟨i, hr, he⟩⟩
  · exact .of_run (by rw [he]) fun _ => .inl (by rw [he])
  · obtain ⟨hf, _⟩ := submitStep_spec (h.inst k) hm'
    refine .of_run hf.run fun hw => ?_
    rcases submitStep_inject hm' with hq | ⟨task, rfl, hq⟩
    · exact .inl hq
    · exact .inr ⟨⟨hw, by simp [ht, atInject]⟩, by simp [hq]⟩
  · obtain ⟨hf, hq, _⟩ := workerStep_spec (h.inst k) hm'
    exact .of_run hf.run fun _ => .inl hq
  · exact .of_run (by rw [he]) fun _ => .inl (by rw [he])
  · exact .of_idle (by rw [hr]; rfl) (by rw [he]; rfl)
  · exact runStep_waitStep hm'
  · rw [he]
    exact ⟨fun hw => (by rw [hr] at hw; cases hw), fun _ => .inl rfl, fun _ => .inl rfl⟩
  · rw [he]
    exact .of_idle (by rw [hr]; rfl) rfl

/-- Without late pushes the injection queue is empty for as long as `run` waits. -/
theorem inject_empty {tr : List (State κ ι α × Action κ ι α)} {s : State κ ι α}
    (h : Run (machine κ ι α) tr s) (hl : ∀ e ∈ tr, ¬ Late k e.1 e.2) :
    (s.inst k).run.waiting → (s.inst k).injectQueue = [] := by
  refine (Steps.invariant_of (C := fun s a => ¬ Late k s a)
    (I := fun s => Inv s ∧ ((s.inst k).run.waiting → (s.inst k).injectQueue = []))
    ?_ h hl ⟨inv_init, fun hw => by cases hw⟩).2
  rintro u a v ⟨hu, hq⟩ ha hs
  have hstep := step_waitStep (k := k) hu hs
  refine ⟨inv_step u a v hu hs, fun hw => ?_⟩
  cases hwu : (u.inst k).run.waiting with
  | false => exact hstep.enter hwu hw
  | true =>
    rcases hstep.queue hwu with hsame | ⟨hlate, _⟩
    · rw [hsame, hq hwu]
    · exact absurd hlate ha

variable [Fintype ι]

theorem pending_of_stranded {tr : List (State κ ι α × Action κ ι α)} {s : State κ ι α}
    (h : Ledger k tr s) (hs : Stranded k s) :
    (s.inst k).pending = (s.inst k).injectQueue.length := by
  obtain ⟨_, _, hdeque, hworker, hcall⟩ := hs
  have hstock : (s.inst k).stock = 0 := by
    refine Finset.sum_eq_zero fun i _ => ?_
    cases hd : (s.inst k).deque i with
    | none => rfl
    | some l => rw [hdeque i l hd]; rfl
  have hhand : inHand k (s.inst k).numWorkers s.worker = 0 := by
    refine Finset.sum_eq_zero fun p hp => ?_
    obtain ⟨k', i⟩ := p
    rw [(mem_crew.mp hp).1]
    have hr := hworker i
    cases hpc : s.worker (k, i) <;> simp_all [WorkerPc.isRunning, WorkerPc.tasks]
  have hflight : inFlight k (s.inst k).numWorkers s.call = 0 := by
    refine Finset.sum_eq_zero fun t _ => ?_
    cases hc : s.call t with
    | none => rfl
    | some c =>
      obtain ⟨k', pc⟩ := c
      simp only [callTasks]
      split_ifs with hk
      · exact hcall t pc (by rw [hc, hk])
      · rfl
  rw [h.pending_eq_card]
  simp [load, stock, hstock, hhand, hflight]

/-- Where `run` waits and the injection queue alone accounts for the counter, the tasks in it
are stranded. -/
theorem stranded_of_pending {tr : List (State κ ι α × Action κ ι α)} {s : State κ ι α}
    (h : Ledger k tr s) (hw : (s.inst k).run = .wait) (hpos : 0 < (s.inst k).pending)
    (hp : (s.inst k).pending = (s.inst k).injectQueue.length) : Stranded k s := by
  have hcard := h.pending_eq_card
  simp only [load, Multiset.card_add, Multiset.coe_card] at hcard
  have hstock : stock k s = 0 := Multiset.card_eq_zero.mp (by omega)
  have hflight : inFlight k (s.inst k).numWorkers s.call = 0 :=
    Multiset.card_eq_zero.mp (by omega)
  refine ⟨hw, hpos, fun i l hd => ?_, fun i => ?_, fun t pc ht => ?_⟩
  · have hlt := (h.inv.inst k).lt (i := i) (by simp [hd])
    have hi := Finset.sum_eq_zero_iff.mp (add_eq_zero.mp hstock).1 i (Finset.mem_range.mpr hlt)
    simpa [hd, dequeTasks] using hi
  · by_cases hlt : i < (s.inst k).numWorkers
    · exact not_running_of_stock hstock hlt
    · rw [h.inv.off k i fun hact => hlt hact.1]
      rfl
  · have ht0 := Finset.sum_eq_zero_iff.mp hflight t (mem_clients h.inv h.guest ht)
    simpa [ht, callTasks] using ht0

/-- Once a push was late `run` waits for its task in vain. -/
theorem late_forever {pre post : List (State κ ι α × Action κ ι α)} {u s : State κ ι α}
    {a : Action κ ι α} (h : Run (machine κ ι α) (pre ++ (u, a) :: post) s)
    (hg : ∀ e ∈ pre ++ (u, a) :: post, ¬ Guest k e.2) (ha : Late k u a) :
    (s.inst k).run.waiting ∧ (s.inst k).injectQueue ≠ [] := by
  obtain ⟨hpre, w, hw, hpost⟩ := Steps.split_at h
  have hu := ledger_of_run hpre fun e he => hg e (by simp [he])
  have hfirst : (w.inst k).run.waiting ∧ (w.inst k).injectQueue ≠ [] := by
    cases a with
    | call t =>
      obtain ⟨hrun, hinject⟩ := ha
      obtain ⟨task, ht⟩ : ∃ task, u.call t = some (k, .pushInject task) := by
        rcases hc : u.call t with _ | ⟨k', _ | _ | _ | _ | _ | task⟩ <;>
          simp_all [atInject]
      simp only [step, machine, ht, submitStep, Option.map_some, Option.some.injEq] at hw
      subst hw
      simpa using hrun
    | _ => exact ha.elim
  refine (Steps.invariant_of (C := fun _ a => ¬ Guest k a)
    (I := fun v => (∃ tr, Ledger k tr v) ∧ (v.inst k).run.waiting ∧ (v.inst k).injectQueue ≠ [])
    ?_ hpost (fun e he => hg e (by simp [he]))
    ⟨⟨_, hu.step (hg (u, a) (by simp)) hw⟩, hfirst⟩).2
  rintro v b x ⟨⟨tr, hv⟩, hwait, hne⟩ hb hs
  have hstep := step_waitStep (k := k) hv.inv hs
  refine ⟨⟨_, hv.step hb hs⟩, ?_, ?_⟩
  · rcases hstep.leave hwait with hx | hle
    · exact hx
    · have hlen : 0 < (v.inst k).injectQueue.length := List.length_pos_iff.mpr hne
      have hcard := hv.pending_eq_card
      simp only [load, Multiset.card_add, Multiset.coe_card] at hcard
      omega
  · rcases hstep.queue hwait with hsame | ⟨_, hx⟩
    · rwa [hsame]
    · exact hx

/-- No task is stranded unless a push to `inject_queue_` comes while `run` waits, and after
such a push `run` never leaves its wait loop. -/
theorem not_stranded {tr : List (State κ ι α × Action κ ι α)} {s : State κ ι α}
    (h : Run (machine κ ι α) tr s) (hg : ∀ e ∈ tr, ¬ Guest k e.2) :
    ((∀ e ∈ tr, ¬ Late k e.1 e.2) → ¬ Stranded k s) ∧
      ∀ pre u a post, tr = pre ++ (u, a) :: post → Late k u a →
        (s.inst k).run.waiting ∧ (s.inst k).injectQueue ≠ [] := by
  refine ⟨fun hl hs => ?_, ?_⟩
  · have hempty := inject_empty h hl (by rw [hs.1]; rfl)
    have hpend := pending_of_stranded (ledger_of_run h hg) hs
    have hpos := hs.2.1
    rw [hpend, hempty] at hpos
    simp at hpos
  · rintro pre u a post rfl ha
    exact late_forever h hg ha

end Step

/-- A task is submitted from outside while `run(1)` waits. -/
def lateSchedule : List (Action Unit (Fin 1) ℕ) :=
  List.flatten [[.run () 1], List.replicate 9 (.runner ()), [.submit (.outside 0) () 7],
    List.replicate 4 (.call (.outside 0))]

theorem exists_stranded :
    ¬ ∀ (tr : List (State Unit (Fin 1) ℕ × Action Unit (Fin 1) ℕ)) (s : State Unit (Fin 1) ℕ),
      Run (machine Unit (Fin 1) ℕ) tr s → ¬ Stranded () s := by
  intro h
  have hend : (exec (machine Unit (Fin 1) ℕ) (machine Unit (Fin 1) ℕ).init lateSchedule).any
      fun s => decide ((s.inst ()).run = .wait ∧ 0 < (s.inst ()).pending ∧
        (s.inst ()).pending = (s.inst ()).injectQueue.length) := by decide
  obtain ⟨s, hs, hlate⟩ := (Option.any_eq_true _ _).mp hend
  obtain ⟨hw, hpos, hp⟩ := of_decide_eq_true hlate
  have hledger := ledger_of_run (exec_steps hs) fun e _ => not_guest () e.2
  exact h _ s (exec_steps hs) (stranded_of_pending hledger hw hpos hp)

/-- A task submitted in time is being run while `run(1)` waits. -/
theorem not_stranded_one_task :
    ∃ s, exec (machine Unit (Fin 1) ℕ) (machine Unit (Fin 1) ℕ).init
        (oneTaskSchedule.take 18) = some s ∧
      (s.inst ()).run = .wait ∧ (s.inst ()).pending = 1 ∧ ¬ Stranded () s := by
  have hend : (exec (machine Unit (Fin 1) ℕ) (machine Unit (Fin 1) ℕ).init
      (oneTaskSchedule.take 18)).any
      fun s => decide ((s.inst ()).run = .wait ∧ (s.inst ()).pending = 1) := by decide
  obtain ⟨s, hs, hwait⟩ := (Option.any_eq_true _ _).mp hend
  obtain ⟨hw, hp⟩ := of_decide_eq_true hwait
  refine ⟨s, hs, hw, hp, (not_stranded (exec_steps hs) fun e _ => not_guest () e.2).1 ?_⟩
  decide

end TaskScheduler.WorkStealing
