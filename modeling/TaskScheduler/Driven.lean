import TaskScheduler.Transition

/-!
# Machines with a client, machines with faults

A machine whose environment is a client with a state of its own, and a machine that may
also fail.
-/
namespace Transition

variable {σ γ κ ℓ φ ω : Type*}

/-- The client `act` turns a choice into an action of the machine, in its own state and that of
the machine, and moves on. -/
def Machine.drive (M : Machine σ ℓ) (c : γ) (act : γ → σ → κ → Option (ℓ × γ)) :
    Machine (σ × γ) κ where
  init := (M.init, c)
  step s k := (act s.2 s.1 k).bind fun r => (M.step s.1 r.1).map fun u => (u, r.2)

section Drive
variable {M : Machine σ ℓ} {c : γ} {act : γ → σ → κ → Option (ℓ × γ)}

theorem drive_step {s u : σ × γ} {k : κ} (h : (M.drive c act).step s k = some u) :
    ∃ a, act s.2 s.1 k = some (a, u.2) ∧ M.step s.1 a = some u.1 := by
  obtain ⟨⟨a, c'⟩, ha, hmap⟩ := Option.bind_eq_some_iff.mp h
  obtain ⟨v, hv, rfl⟩ := Option.map_eq_some_iff.mp hmap
  exact ⟨a, ha, hv⟩

/-- What the machine did in an execution with its client. -/
def driven (act : γ → σ → κ → Option (ℓ × γ)) (tr : List ((σ × γ) × κ)) : List (σ × ℓ) :=
  log (fun s k => (act s.2 s.1 k).map fun r => (s.1, r.1)) tr

theorem driven_snoc {s : σ × γ} {k : κ} {a : ℓ} {c' : γ} (tr : List ((σ × γ) × κ))
    (h : act s.2 s.1 k = some (a, c')) :
    driven act (tr ++ [(s, k)]) = driven act tr ++ [(s.1, a)] := by
  rw [driven, log_snoc, h]
  rfl

/-- The machine runs under its client as it runs alone. -/
theorem Run.driven {tr : List ((σ × γ) × κ)} {s : σ × γ} (h : Run (M.drive c act) tr s) :
    Run M (driven act tr) s.1 := by
  induction h with
  | nil => exact .nil
  | snoc _ last ih =>
    obtain ⟨a, ha, hs⟩ := drive_step last
    rw [driven_snoc _ ha]
    exact .snoc ih hs

/-- An observer of the machine, under a client that only restricts what the machine does. -/
theorem log_driven {act : γ → σ → ℓ → Option (ℓ × γ)} (hact : ∀ c s a r, act c s a = some r → r.1 = a)
    (o : σ → ℓ → Option ω) {tr : List ((σ × γ) × ℓ)} {s : σ × γ} (h : Run (M.drive c act) tr s) :
    log o (driven act tr) = log (fun s a => o s.1 a) tr := by
  induction h with
  | nil => rfl
  | snoc _ last ih =>
    obtain ⟨a, ha, -⟩ := drive_step last
    obtain rfl : a = _ := hact _ _ _ _ ha
    rw [driven_snoc _ ha, log_snoc, log_snoc, ih]

end Drive

/-- Work that is done in an order: each step emits what it takes off the front of the order of
the work that is left. -/
theorem log_order {M : Machine σ ℓ} {I : σ → Prop} {o : σ → ℓ → Option ω} {order : σ → List ω}
    (h0 : I M.init) (hI : ∀ u a v, I u → M.step u a = some v → I v)
    (hstep : ∀ u a v, I u → M.step u a = some v → order u = (o u a).toList ++ order v)
    {tr : List (σ × ℓ)} {s : σ} (h : Run M tr s) : log o tr ++ order s = order M.init := by
  induction h with
  | nil => rfl
  | snoc prior last ih =>
    rw [log_snoc, List.append_assoc, ← hstep _ _ _ (Run.invariant h0 hI prior) last, ih]

/-- The machine, and the faults that it may suffer. -/
def Machine.faulty (M : Machine σ ℓ) (fault : σ → φ → Option σ) : Machine σ (ℓ ⊕ φ) where
  init := M.init
  step s
    | .inl a => M.step s a
    | .inr f => fault s f

/-- An observer of the steps, who does not see the faults. -/
def onStep (o : σ → ℓ → Option ω) (s : σ) : ℓ ⊕ φ → Option ω
  | .inl a => o s a
  | .inr _ => none

def onFault (o : σ → φ → Option ω) (s : σ) : ℓ ⊕ φ → Option ω
  | .inl _ => none
  | .inr f => o s f

/-- A call that one thread makes alone: how it begins, its steps, and how it ends. -/
theorem exec_call {M : Machine σ ℓ} {s v : σ} {start own stop : ℓ} {n : ℕ}
    (h : exec M s (start :: (List.replicate n own ++ [stop])) = some v) :
    ∃ u tr w, M.step s start = some u ∧ Steps M u tr w ∧ (∀ e ∈ tr, e.2 = own) ∧
      M.step w stop = some v := by
  obtain ⟨u, hu, hrest⟩ := Option.bind_eq_some_iff.mp h
  rw [exec_append] at hrest
  obtain ⟨w, hw, hlast⟩ := Option.bind_eq_some_iff.mp hrest
  obtain ⟨v', hv, hv'⟩ := Option.bind_eq_some_iff.mp hlast
  obtain rfl : v' = v := Option.some.inj hv'
  exact ⟨u, _, w, hu, exec_steps hw,
    fun e he => List.eq_of_mem_replicate (mem_of_mem_record he), hv⟩

end Transition
