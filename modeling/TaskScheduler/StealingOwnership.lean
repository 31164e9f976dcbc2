import TaskScheduler.StealingInvariant

/-!
# The owner of a worker deque

`submit` chooses the deque it pushes to by the thread-local id, which does not say whose
worker the thread is. The deques keep a single owner as long as no worker takes the
worker path of `submit` on an instance other than its own.
-/
namespace TaskScheduler.WorkStealing
open Transition

variable {κ ι α : Type*}

inductive DequeOp
  | pushBottom
  | popBottom
  | steal
deriving DecidableEq

/-- An operation on deque `i` of instance `k`, by a thread, or by `run` where `thread` is
none. -/
structure Access (κ ι : Type*) where
  k : κ
  i : ℕ
  op : DequeOp
  thread : Option (Thread κ ι)
deriving DecidableEq

/-- The deque operation that a step performs. -/
def access (s : State κ ι α) : Action κ ι α → Option (Access κ ι)
  | .call t =>
    match s.call t with
    | some (k, .pushLocal wid _) => some ⟨k, wid.toNat, .pushBottom, some t⟩
    | _ => none
  | .worker k i _ =>
    match s.worker (k, i) with
    | .pop => some ⟨k, i, .popBottom, some (.worker k i)⟩
    | .steal start attempt =>
      let n := u32 (s.inst k).size
      if attempt < n - 1 then some ⟨k, victim n i start attempt, .steal, some (.worker k i)⟩
      else none
    | _ => none
  | .runner k =>
    match (s.inst k).run, (s.inst k).injectQueue with
    | .drain, _ :: _ => some ⟨k, 0, .pushBottom, none⟩
    | _, _ => none
  | _ => none

/-- The thread of the worker has been launched and has not returned. -/
def WorkerPc.isLive : WorkerPc α → Bool
  | .off | .exited => false
  | _ => true

def WorkersRun (k : κ) (s : State κ ι α) : Prop := ∃ i, (s.worker (k, i)).isLive

/-- The access respects the deque: its bottom end belongs to its own worker, its top end to
the other workers of the instance. -/
def Access.Owned (x : Access κ ι) : Prop :=
  match x.op with
  | .pushBottom | .popBottom => x.thread = some (.worker x.k x.i)
  | .steal => ∃ j ≠ x.i, x.thread = some (.worker x.k j)

/-- Every deque operation of the step on an instance whose workers run respects the deque. -/
def Disciplined (s : State κ ι α) (a : Action κ ι α) : Prop :=
  ∀ x, access s a = some x → WorkersRun x.k s → x.Owned

def SubmitPc.isCheck : SubmitPc α → Bool
  | .check _ => true
  | _ => false

/-- The step is the test of `submit` by a worker of another instance, and it takes the worker
path. -/
def Crosses (s : State κ ι α) : Action κ ι α → Prop
  | .call (.worker k' i) => ∃ c ∈ s.call (.worker k' i), c.2.isCheck ∧ c.1 ≠ k' ∧
      0 ≤ s.tlWorkerId (.worker k' i) ∧ s.tlWorkerId (.worker k' i) < asInt (s.inst c.1).size
  | _ => False

instance [DecidableEq κ] (s : State κ ι α) : DecidablePred (Crosses s)
  | .call (.worker _ _) => inferInstanceAs (Decidable (∃ c ∈ _, _ ∧ _ ∧ _ ∧ _))
  | .call (.outside _) | .submit .. | .worker .. | .finish .. | .run .. | .runner .. =>
    .isFalse id

/-- A worker on the worker path of `submit` submits to its own instance. -/
def Home (s : State κ ι α) : Prop :=
  ∀ k' i k pc, s.call (.worker k' i) = some (k, pc) → pc.wid? ≠ none → k = k'

theorem asInt_eq {n : ℕ} (hn : n < 2 ^ 32) :
    asInt n = if n < 2 ^ 31 then (n : ℤ) else n - 2 ^ 32 := by
  have hmod : (n : ℤ) % ((2 ^ 32 : ℕ) : ℤ) = n :=
    Int.emod_eq_of_lt (by omega) (by push_cast; omega)
  unfold asInt
  rw [Int.bmod_def, hmod]
  norm_num

theorem asInt_toNat {i : ℕ} (hi : i < 2 ^ 32) (h : 0 ≤ asInt i) : (asInt i).toNat = i := by
  rw [asInt_eq hi] at h ⊢
  split_ifs at h ⊢ <;> omega

/-- The victim of an attempt is never the thief itself. -/
theorem victim_ne {n id start attempt : ℕ} (hn : 1 < n) (hn' : n < 2 ^ 32) :
    victim n id start attempt ≠ id := by
  simp only [victim]
  have hlt : u32 (start + attempt) % n < n := Nat.mod_lt _ (by omega)
  split_ifs with hv
  · have hu : u32 (u32 (start + attempt) % n + 1) = u32 (start + attempt) % n + 1 :=
      Nat.mod_eq_of_lt (by omega)
    rw [hu, hv]
    rw [hv] at hlt
    rcases Nat.lt_or_ge (id + 1) n with hlt' | hge
    · rw [Nat.mod_eq_of_lt hlt']
      omega
    · have he : id + 1 = n := by omega
      rw [he, Nat.mod_self]
      omega
  · exact hv

theorem submitStep_local {m m' : Instance α} {tl : ℤ} {pc pc' : SubmitPc α}
    (h : submitStep m tl pc = some (m', some pc')) (hw : pc'.wid? ≠ none) :
    pc.wid? ≠ none ∨ (∃ task, pc = .check task) ∧ 0 ≤ tl ∧ tl < asInt m.size := by
  cases pc with
  | check task =>
    simp only [submitStep] at h
    split_ifs at h with htl <;> cases h
    · exact .inr ⟨⟨task, rfl⟩, htl⟩
    · exact absurd rfl hw
  | addLocal wid task => exact .inl (by simp [SubmitPc.wid?])
  | pushLocal wid task => exact .inl (by simp [SubmitPc.wid?])
  | lock task =>
    simp only [submitStep] at h
    split_ifs at h
    cases h
    exact absurd rfl hw
  | addInject task =>
    cases h
    exact absurd rfl hw
  | pushInject task => cases h

section Step
variable [DecidableEq κ] [DecidableEq ι]

theorem home_step {s s' : State κ ι α} {a : Action κ ι α} (h : Home s) (ha : ¬ Crosses s a)
    (hs : step s a = some s') : Home s' := by
  intro k' i k pc hcall hw
  cases a with
  | submit t k'' task =>
    simp only [step] at hs
    split_ifs at hs
    cases hs
    rcases eq_or_ne (Thread.worker k' i) t with rfl | hne
    · simp only [setCall_call, Function.update_self, Option.some.injEq, Prod.mk.injEq] at hcall
      rw [← hcall.2] at hw
      exact absurd rfl hw
    · exact h k' i k pc (by simpa only [setCall_call, Function.update_of_ne hne] using hcall) hw
  | call t =>
    cases hc : s.call t with
    | none => simp [step, hc] at hs
    | some c =>
      obtain ⟨k₀, pc₀⟩ := c
      simp only [step, hc, Option.map_eq_some_iff, Prod.exists] at hs
      obtain ⟨m', rest, hm', rfl⟩ := hs
      rcases eq_or_ne (Thread.worker k' i) t with rfl | hne
      · simp only [setCall_call, Function.update_self, Option.map_eq_some_iff,
          Prod.mk.injEq] at hcall
        obtain ⟨_, rfl, rfl, rfl⟩ := hcall
        rcases submitStep_local hm' hw with hold | ⟨⟨task, rfl⟩, htl⟩
        · exact h k' i k₀ pc₀ hc hold
        · by_contra hne
          exact ha ⟨_, hc, rfl, hne, htl⟩
      · refine h k' i k pc ?_ hw
        simpa only [setCall_call, Function.update_of_ne hne, setInst_call] using hcall
  | _ => exact h k' i k pc (call_eq_of_step (by simp) (by simp) hs ▸ hcall) hw

/-- A thread on the worker path of `submit` pushes to the deque of its own context. -/
theorem push_owned {s : State κ ι α} (h : Inv s) (hh : Home s) {t : Thread κ ι} {k : κ} {wid : ℤ}
    {task : α} (ht : s.call t = some (k, .pushLocal wid task)) :
    t = .worker k wid.toNat := by
  obtain ⟨rfl, hnonneg⟩ := h.route t k _ wid ht rfl
  cases t with
  | outside o =>
    rw [h.outside_id o] at hnonneg
    omega
  | worker k' i =>
    obtain rfl := hh k' i k _ ht (by simp [SubmitPc.wid?])
    have hrun := isRunning_of_call h (t := .worker k i) (by simp [ht]) k i rfl
    have hid := h.worker_id k i (WorkerPc.isStarted_of_isRunning hrun)
    have hlt : i < 2 ^ 32 := by
      refine (h.active ?_).1.trans (h.inst k).small
      intro he
      rw [he] at hrun
      cases hrun
    rw [hid] at hnonneg ⊢
    rw [asInt_toNat hlt hnonneg]

theorem disciplined {s : State κ ι α} (h : Inv s) (hh : Home s) (a : Action κ ι α) :
    Disciplined s a := by
  intro x hx hrun
  cases a with
  | call t =>
    simp only [access] at hx
    split at hx
    · rename_i k wid task ht
      cases hx
      exact congrArg some (push_owned h hh ht)
    · cases hx
  | worker k i rng =>
    simp only [access] at hx
    split at hx
    · cases hx
      rfl
    · split_ifs at hx with hlt
      cases hx
      have hn : 1 < u32 (s.inst k).size := by omega
      have hn' : u32 (s.inst k).size < 2 ^ 32 := Nat.mod_lt _ (by norm_num)
      exact ⟨i, (victim_ne hn hn').symm, rfl⟩
    · cases hx
  | runner k =>
    simp only [access] at hx
    split at hx
    · rename_i hr _
      cases hx
      obtain ⟨i, hi⟩ := hrun
      rw [h.off k i (by simp [Active, hr])] at hi
      cases hi
    · cases hx
  | _ => cases hx

/-- The worker path taken on a foreign instance ends in a push to a deque of another worker,
if the workers of that instance still run when the next two accesses are made. -/
theorem crosses_push {s s' : State κ ι α} {a : Action κ ι α} (ha : Crosses s a)
    (hs : step s a = some s') :
    ∃ k k' i wid v, a = .call (.worker k' i) ∧ k ≠ k' ∧ step s' a = some v ∧
      access v a = some ⟨k, wid, .pushBottom, some (.worker k' i)⟩ ∧
      v.worker = s.worker := by
  rcases a with _ | (⟨k', i⟩ | o) | _ | _ | _ | _
  case call.worker =>
    obtain ⟨⟨k, pc⟩, hc, hcheck, hne, htl⟩ := ha
    obtain ⟨task, rfl⟩ : ∃ task, pc = .check task := by
      cases pc <;> simp_all [SubmitPc.isCheck]
    have hc' : s.call (.worker k' i) = some (k, .check task) := hc
    simp only [step, hc', submitStep, htl, and_self, if_true, Option.map_some,
      Option.some.injEq] at hs
    have hcall : s'.call (.worker k' i) =
        some (k, .addLocal (s.tlWorkerId (.worker k' i)) task) := by
      rw [← hs]
      simp
    refine ⟨k, k', i, (s.tlWorkerId (.worker k' i)).toNat,
      (s'.setInst k { s'.inst k with pending := (s'.inst k).pending + 1 }).setCall (.worker k' i)
        (some (k, .pushLocal (s.tlWorkerId (.worker k' i)) task)), rfl, hne, ?_, ?_, ?_⟩
    · simp only [step, hcall, submitStep, Option.map_some]
    · simp [access]
    · rw [← hs]
      rfl
  all_goals exact ha.elim

/-- While the workers of an instance run, only the worker itself uses the bottom end of its
deque and only the others its top end, in every run in which no worker takes the worker path
of `submit` on another instance. A worker that takes it will push to a deque that is not
its own. -/
theorem single_owner {tr : List (State κ ι α × Action κ ι α)} {s : State κ ι α}
    (h : Run (machine κ ι α) tr s) :
    ((∀ e ∈ tr, ¬ Crosses e.1 e.2) → ∀ e ∈ tr, Disciplined e.1 e.2) ∧
      ∀ pre u a, tr = pre ++ [(u, a)] → Crosses u a →
        ∃ k k' i wid v, a = .call (.worker k' i) ∧ k ≠ k' ∧ step s a = some v ∧
          access v a = some ⟨k, wid, .pushBottom, some (.worker k' i)⟩ ∧
          (WorkersRun k u → ¬ Disciplined v a) := by
  refine ⟨fun hc e he => ?_, ?_⟩
  · obtain ⟨pre, post, rfl⟩ := List.append_of_mem he
    have hpre := (Steps.split_at (u := e.1) (a := e.2) h).1
    have hinv := Steps.invariant_of (I := fun s => Inv s ∧ Home s)
      (C := fun s a => ¬ Crosses s a)
      (fun u a v hu ha hs => ⟨inv_step u a v hu.1 hs, home_step hu.2 ha hs⟩) hpre
      (fun x hx => hc x (by simp [hx])) ⟨inv_init, fun _ _ _ _ hcall => by cases hcall⟩
    exact disciplined hinv.1 hinv.2 e.2
  · rintro pre u a rfl ha
    obtain ⟨k, k', i, wid, v, rfl, hne, hv, hacc, hworker⟩ := crosses_push ha h.last.2
    refine ⟨k, k', i, wid, v, rfl, hne, hv, hacc, fun hrun hd => ?_⟩
    have hown := hd _ hacc (by simpa only [WorkersRun, hworker] using hrun)
    simp only [Access.Owned, Option.some.injEq, Thread.worker.injEq] at hown
    exact hne hown.1.symm

end Step

/-- A task of instance `0` is being run by its worker `0`. -/
def runningSchedule : List (Action (Fin 2) (Fin 1) ℕ) :=
  List.flatten [[.submit (.outside 0) 0 7], List.replicate 4 (.call (.outside 0)), [.run 0 1],
    List.replicate 10 (.runner 0), List.replicate 2 (.worker 0 0 0)]

/-- It submits a task to instance `1`, which has not been started. -/
def bufferedSchedule : List (Action (Fin 2) (Fin 1) ℕ) :=
  List.flatten [runningSchedule, [.submit (.worker 0 0) 1 8],
    List.replicate 4 (.call (.worker 0 0))]

theorem single_owner_buffered :
    ∃ s, exec (machine (Fin 2) (Fin 1) ℕ) (machine (Fin 2) (Fin 1) ℕ).init bufferedSchedule =
        some s ∧
      ∀ e ∈ record (machine (Fin 2) (Fin 1) ℕ) (machine (Fin 2) (Fin 1) ℕ).init bufferedSchedule,
        Disciplined e.1 e.2 := by
  have hen : (exec (machine (Fin 2) (Fin 1) ℕ) (machine (Fin 2) (Fin 1) ℕ).init
      bufferedSchedule).isSome := by decide
  obtain ⟨s, hexec, hs⟩ := exists_run hen
  exact ⟨s, hexec, (single_owner hs).1 (by decide)⟩

/-- It submits the task to instance `1` while worker `0` of that instance runs. -/
def crossingSchedule : List (Action (Fin 2) (Fin 1) ℕ) :=
  List.flatten [runningSchedule, [.run 1 1], List.replicate 9 (.runner 1),
    [.worker 1 0 0, .submit (.worker 0 0) 1 8], List.replicate 2 (.call (.worker 0 0))]

theorem two_owners :
    ¬ ∀ (tr : List (State (Fin 2) (Fin 1) ℕ × Action (Fin 2) (Fin 1) ℕ))
      (s : State (Fin 2) (Fin 1) ℕ), Run (machine (Fin 2) (Fin 1) ℕ) tr s →
        ∀ e ∈ tr, Disciplined e.1 e.2 := by
  intro h
  have hend : (exec (machine (Fin 2) (Fin 1) ℕ) (machine (Fin 2) (Fin 1) ℕ).init
      crossingSchedule).any fun s => decide (access s (.call (.worker 0 0)) =
        some ⟨1, 0, .pushBottom, some (.worker 0 0)⟩ ∧ (s.worker (1, 0)).isLive ∧
        (step s (.call (.worker 0 0))).isSome) := by decide
  obtain ⟨s, hs, hcross⟩ := (Option.any_eq_true _ _).mp hend
  obtain ⟨hacc, hlive, hen⟩ := of_decide_eq_true hcross
  obtain ⟨v, hv⟩ := Option.isSome_iff_exists.mp hen
  have hrun : Run (machine (Fin 2) (Fin 1) ℕ) (_ ++ [(s, .call (.worker 0 0))]) v :=
    Steps.snoc (exec_steps hs) hv
  have hd := h _ v hrun (s, .call (.worker 0 0)) (by simp)
  have hown := hd _ hacc ⟨0, hlive⟩
  simp [Access.Owned] at hown

end TaskScheduler.WorkStealing
