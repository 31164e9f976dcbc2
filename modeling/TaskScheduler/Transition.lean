import Mathlib

/-!
# Labelled transition systems

Machines with an executable step, their recorded runs, the invariant rules over
runs, and refinement mappings between two machines. A label names the party that
moves together with every choice its step makes, so a machine is deterministic
once the labels are given; concurrency is the freedom in the sequence of labels.
-/
namespace Transition

variable {σ τ ℓ μ ω : Type*}

structure Machine (σ ℓ : Type*) where
  init : σ
  step : σ → ℓ → Option σ

/-- A finite execution from `s`, recorded as the state before each step and its label. -/
inductive Steps (M : Machine σ ℓ) (s : σ) : List (σ × ℓ) → σ → Prop
  | nil : Steps M s [] s
  | snoc {tr : List (σ × ℓ)} {u v : σ} {a : ℓ} (prior : Steps M s tr u)
      (last : M.step u a = some v) : Steps M s (tr ++ [(u, a)]) v

def Run (M : Machine σ ℓ) (tr : List (σ × ℓ)) (s : σ) : Prop := Steps M M.init tr s

def Reachable (M : Machine σ ℓ) (s : σ) : Prop := ∃ tr, Run M tr s

variable {M : Machine σ ℓ} {A : Machine τ μ}

theorem Steps.one {s u : σ} {a : ℓ} (h : M.step s a = some u) : Steps M s [(s, a)] u :=
  .snoc .nil h

theorem Steps.append {s u v : σ} {tr tr' : List (σ × ℓ)}
    (h : Steps M s tr u) (h' : Steps M u tr' v) : Steps M s (tr ++ tr') v := by
  induction h' with
  | nil => simpa using h
  | snoc _ last ih =>
    rw [← List.append_assoc]
    exact .snoc ih last

/-- A recorded execution can be cut at every position. -/
theorem Steps.split {s v : σ} {tr tr' : List (σ × ℓ)} (h : Steps M s (tr ++ tr') v) :
    ∃ u, Steps M s tr u ∧ Steps M u tr' v := by
  induction tr' using List.reverseRecOn generalizing v with
  | nil => exact ⟨v, by simpa using h, .nil⟩
  | append_singleton tr' e ih =>
    rw [← List.append_assoc] at h
    generalize hw : tr ++ tr' ++ [e] = w at h
    cases h with
    | nil => simp at hw
    | @snoc pre u v a prior last =>
      obtain ⟨rfl, he⟩ := List.append_inj' hw rfl
      obtain rfl : e = (u, a) := by simpa using he
      obtain ⟨m, hm, hm'⟩ := ih prior
      exact ⟨m, hm, .snoc hm' last⟩

/-- The entry after a prefix records the state that the prefix reaches. -/
theorem Steps.split_at {s u v : σ} {a : ℓ} {tr tr' : List (σ × ℓ)}
    (h : Steps M s (tr ++ (u, a) :: tr') v) :
    Steps M s tr u ∧ ∃ w, M.step u a = some w ∧ Steps M w tr' v := by
  rw [List.append_cons] at h
  obtain ⟨w, hw, hrest⟩ := h.split
  generalize he : tr ++ [(u, a)] = tr₀ at hw
  cases hw with
  | nil => simp at he
  | @snoc pre u' w a' prior last =>
    obtain ⟨rfl, hlast⟩ := List.append_inj' he rfl
    obtain ⟨rfl, rfl⟩ : u = u' ∧ a = a' := by simpa using hlast
    exact ⟨prior, w, last, hrest⟩

theorem Steps.of_nil {s u : σ} (h : Steps M s [] u) : u = s := by
  generalize hw : ([] : List (σ × ℓ)) = tr at h
  cases h with
  | nil => rfl
  | snoc _ _ => simp at hw

theorem Steps.last {s u v : σ} {a : ℓ} {tr : List (σ × ℓ)} (h : Steps M s (tr ++ [(u, a)]) v) :
    Steps M s tr u ∧ M.step u a = some v := by
  obtain ⟨hpre, w, hw, hnil⟩ := h.split_at
  exact ⟨hpre, hnil.of_nil ▸ hw⟩

/-- A property that every step keeps holds at the end of the execution. -/
theorem Steps.invariant {I : σ → Prop} (hstep : ∀ u a v, I u → M.step u a = some v → I v)
    {s u : σ} {tr : List (σ × ℓ)} (h : Steps M s tr u) (hs : I s) : I u := by
  induction h with
  | nil => exact hs
  | snoc _ last ih => exact hstep _ _ _ ih last

theorem Run.invariant {I : σ → Prop} (h0 : I M.init)
    (hstep : ∀ u a v, I u → M.step u a = some v → I v)
    {s : σ} {tr : List (σ × ℓ)} (h : Run M tr s) : I s :=
  Steps.invariant hstep h h0

theorem Reachable.invariant {I : σ → Prop} (h0 : I M.init)
    (hstep : ∀ u a v, I u → M.step u a = some v → I v)
    {s : σ} (h : Reachable M s) : I s := by
  obtain ⟨tr, htr⟩ := h
  exact Run.invariant h0 hstep htr

/-- The invariant rule restricted to executions whose steps all meet `C`. -/
theorem Steps.invariant_of {I : σ → Prop} {C : σ → ℓ → Prop}
    (hstep : ∀ u a v, I u → C u a → M.step u a = some v → I v)
    {s u : σ} {tr : List (σ × ℓ)} (h : Steps M s tr u) (hC : ∀ e ∈ tr, C e.1 e.2)
    (hs : I s) : I u := by
  induction h with
  | nil => exact hs
  | snoc _ last ih =>
    exact hstep _ _ _ (ih fun e he => hC e (by simp [he])) (hC (_, _) (by simp)) last

/-- Invariants that mention the recorded history: the rule is induction on the run. -/
theorem Run.history {I : List (σ × ℓ) → σ → Prop} (h0 : I [] M.init)
    (hstep : ∀ tr u a v, I tr u → M.step u a = some v → I (tr ++ [(u, a)]) v)
    {s : σ} {tr : List (σ × ℓ)} (h : Run M tr s) : I tr s := by
  induction h with
  | nil => exact h0
  | snoc _ last ih => exact hstep _ _ _ _ ih last

theorem Run.history_of {I : List (σ × ℓ) → σ → Prop} {C : σ → ℓ → Prop} (h0 : I [] M.init)
    (hstep : ∀ tr u a v, I tr u → C u a → M.step u a = some v → I (tr ++ [(u, a)]) v)
    {s : σ} {tr : List (σ × ℓ)} (h : Run M tr s) (hC : ∀ e ∈ tr, C e.1 e.2) : I tr s := by
  induction h with
  | nil => exact h0
  | snoc _ last ih =>
    exact hstep _ _ _ _ (ih fun e he => hC e (by simp [he])) (hC (_, _) (by simp)) last

theorem Run.reachable {s : σ} {tr : List (σ × ℓ)} (h : Run M tr s) : Reachable M s := ⟨tr, h⟩

theorem Reachable.next {s u : σ} {a : ℓ} (h : Reachable M s) (hs : M.step s a = some u) :
    Reachable M u := by
  obtain ⟨tr, htr⟩ := h
  exact ⟨_, .snoc htr hs⟩

-- The parties of exhibited runs are numerals of `Fin 1`, `Fin 2` and `Fin 3`.
instance oneParty : NeZero (1 : ℕ) := ⟨one_ne_zero⟩

instance twoParties : NeZero (2 : ℕ) := ⟨two_ne_zero⟩

instance threeParties : NeZero (3 : ℕ) := ⟨three_ne_zero⟩

/-- Follow a given schedule, if every step of it is enabled. -/
def exec (M : Machine σ ℓ) : σ → List ℓ → Option σ
  | s, [] => some s
  | s, a :: as => (M.step s a).bind fun u => exec M u as

/-- The recorded execution of a schedule, up to its first step that is not enabled. -/
def record (M : Machine σ ℓ) : σ → List ℓ → List (σ × ℓ)
  | _, [] => []
  | s, a :: as =>
    match M.step s a with
    | some u => (s, a) :: record M u as
    | none => []

theorem exec_steps {s u : σ} {as : List ℓ} (h : exec M s as = some u) :
    Steps M s (record M s as) u := by
  induction as generalizing s with
  | nil =>
    obtain rfl : s = u := by simpa [exec] using h
    exact .nil
  | cons a as ih =>
    obtain ⟨v, hv, hrest⟩ := Option.bind_eq_some_iff.mp h
    simp only [record, hv]
    exact (Steps.one hv).append (ih hrest)

/-- A schedule whose steps are all enabled is a run. -/
theorem exists_run {as : List ℓ} (h : (exec M M.init as).isSome) :
    ∃ s, exec M M.init as = some s ∧ Run M (record M M.init as) s := by
  obtain ⟨s, hs⟩ := Option.isSome_iff_exists.mp h
  exact ⟨s, hs, exec_steps hs⟩

theorem exec_append (s : σ) (as bs : List ℓ) :
    exec M s (as ++ bs) = (exec M s as).bind fun u => exec M u bs := by
  induction as generalizing s with
  | nil => rfl
  | cons a as ih => simp only [List.cons_append, exec, ih, Option.bind_assoc]

/-- What an observer of the steps records along an execution. -/
def log (o : σ → ℓ → Option ω) (tr : List (σ × ℓ)) : List ω :=
  tr.filterMap fun e => o e.1 e.2

@[simp] theorem log_nil (o : σ → ℓ → Option ω) : log o [] = [] := rfl

theorem log_snoc (o : σ → ℓ → Option ω) (tr : List (σ × ℓ)) (s : σ) (a : ℓ) :
    log o (tr ++ [(s, a)]) = log o tr ++ (o s a).toList := by
  simp only [log, List.filterMap_append, List.filterMap_cons, List.filterMap_nil]
  cases o s a <;> rfl

theorem log_append (o : σ → ℓ → Option ω) (tr tr' : List (σ × ℓ)) :
    log o (tr ++ tr') = log o tr ++ log o tr' := by
  simp [log]

theorem mem_of_mem_record {e : σ × ℓ} {s : σ} {as : List ℓ} (h : e ∈ record M s as) :
    e.2 ∈ as := by
  induction as generalizing s with
  | nil => cases h
  | cons a as ih =>
    cases hs : M.step s a with
    | none => simp [record, hs] at h
    | some u =>
      simp only [record, hs, List.mem_cons] at h
      rcases h with rfl | h
      · exact List.mem_cons_self
      · exact List.mem_cons_of_mem a (ih h)

/-- What is read off the labels alone is known from the schedule. -/
theorem log_record {o : ℓ → Option ω} {s u : σ} {as : List ℓ} (h : exec M s as = some u) :
    log (fun _ a => o a) (record M s as) = as.filterMap o := by
  induction as generalizing s with
  | nil => rfl
  | cons a as ih =>
    obtain ⟨v, hv, hrest⟩ := Option.bind_eq_some_iff.mp h
    simp only [record, hv, List.filterMap_cons, ← ih hrest]
    rfl

/-- A refinement mapping: under an invariant of `M`, every step of `M` is the step of `A`
that `label` names, or leaves the image unchanged where `label` names none. -/
structure Refinement (M : Machine σ ℓ) (A : Machine τ μ) (I : σ → Prop) where
  map : σ → τ
  label : σ → ℓ → Option μ
  init : map M.init = A.init
  step : ∀ s a s', I s → M.step s a = some s' →
    match label s a with
    | some e => A.step (map s) e = some (map s')
    | none => map s' = map s

/-- The image of a recorded execution under a refinement mapping. -/
def Refinement.trace {I : σ → Prop} (R : Refinement M A I) (tr : List (σ × ℓ)) :
    List (τ × μ) :=
  log (fun s a => (R.label s a).map fun e => (R.map s, e)) tr

theorem Refinement.run {I : σ → Prop} (R : Refinement M A I)
    (h0 : I M.init) (hstep : ∀ u a v, I u → M.step u a = some v → I v)
    {s : σ} {tr : List (σ × ℓ)} (h : Run M tr s) : Run A (R.trace tr) (R.map s) := by
  induction h with
  | nil =>
    rw [R.init]
    exact .nil
  | @snoc tr u v a prior last ih =>
    have hI : I u := Run.invariant h0 hstep prior
    have hR := R.step u a v hI last
    rw [Refinement.trace, log_snoc]
    cases hl : R.label u a with
    | none =>
      rw [hl] at hR
      rw [hR]
      simpa [Refinement.trace] using ih
    | some e =>
      rw [hl] at hR
      exact .snoc ih hR

/-- An observation of the abstract machine, read along the image, is an observation of the
concrete one. -/
theorem Refinement.log_map {I : σ → Prop} (R : Refinement M A I) (o : τ → μ → Option ω)
    (tr : List (σ × ℓ)) :
    log o (R.trace tr) = log (fun s a => (R.label s a).bind (o (R.map s))) tr := by
  simp only [Refinement.trace, log, List.filterMap_filterMap]
  congr 1
  funext e
  cases R.label e.1 e.2 <;> rfl

theorem Refinement.log_trace {I : σ → Prop} (R : Refinement M A I) (o : μ → Option ω)
    (tr : List (σ × ℓ)) :
    log (fun _ e => o e) (R.trace tr) = log (fun s a => (R.label s a).bind o) tr :=
  R.log_map (fun _ e => o e) tr

end Transition
