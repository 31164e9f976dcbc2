import Mathlib

/-!
# Spawn forests

Finite trees of tasks, each with the tasks that it submits, and two orders in which a worklist
goes through a forest: level by level from a queue, and depth first from a stack.
-/
namespace SpawnForest

variable {β : Type*}

inductive SpawnTree (β : Type*)
  | node (label : β) (children : List (SpawnTree β))

namespace SpawnTree

def label : SpawnTree β → β
  | .node b _ => b

def children : SpawnTree β → List (SpawnTree β)
  | .node _ cs => cs

mutual

def height : SpawnTree β → ℕ
  | .node _ cs => heightAll cs + 1

def heightAll : List (SpawnTree β) → ℕ
  | [] => 0
  | t :: ts => max t.height (heightAll ts)

end

mutual

/-- Pre-order, the last child first. -/
def depthFirst : SpawnTree β → List (SpawnTree β)
  | .node b cs => .node b cs :: depthFirstAll cs

/-- The trees of a forest in pre-order, the last tree first. -/
def depthFirstAll : List (SpawnTree β) → List (SpawnTree β)
  | [] => []
  | t :: ts => depthFirstAll ts ++ t.depthFirst

end

/-- The nodes of one level of a forest, from left to right. -/
def level (f : List (SpawnTree β)) : ℕ → List (SpawnTree β)
  | 0 => f
  | n + 1 => level (f.flatMap children) n

/-- The nodes of a forest level by level. -/
def breadthFirst (f : List (SpawnTree β)) : List (SpawnTree β) :=
  (List.range (heightAll f)).flatMap (level f)

end SpawnTree

open SpawnTree

section Order
variable {f g : List (SpawnTree β)} {t : SpawnTree β}

theorem height_eq (t : SpawnTree β) : t.height = heightAll t.children + 1 := by
  cases t
  simp only [height, children]

theorem heightAll_append : heightAll (f ++ g) = max (heightAll f) (heightAll g) := by
  induction f with
  | nil => simp [heightAll]
  | cons t f ih => simp only [List.cons_append, heightAll, ih, max_assoc]

theorem heightAll_children : heightAll (f.flatMap children) = heightAll f - 1 := by
  induction f with
  | nil => rfl
  | cons t f ih =>
    simp only [List.flatMap_cons, heightAll_append, ih, heightAll, height_eq]
    omega

theorem heightAll_eq_zero : heightAll f = 0 ↔ f = [] := by
  cases f with
  | nil => simp [heightAll]
  | cons t f =>
    simp only [heightAll, height_eq]
    constructor
    · intro h
      omega
    · intro h
      cases h

theorem breadthFirst_nil : breadthFirst ([] : List (SpawnTree β)) = [] := by
  simp [breadthFirst, heightAll]

/-- One level, and then the levels of the forest of its children. -/
theorem breadthFirst_eq (f : List (SpawnTree β)) :
    breadthFirst f = f ++ breadthFirst (f.flatMap children) := by
  cases h : heightAll f with
  | zero =>
    obtain rfl := heightAll_eq_zero.mp h
    simp [breadthFirst_nil]
  | succ n =>
    have hn : heightAll (f.flatMap children) = n := by rw [heightAll_children, h, Nat.add_sub_cancel]
    rw [breadthFirst, breadthFirst, h, hn, List.range_succ_eq_map, List.flatMap_cons,
      List.flatMap_map]
    rfl

/-- Part of a level may be taken first, when its children are put behind the rest. -/
theorem breadthFirst_append (f g : List (SpawnTree β)) :
    breadthFirst (f ++ g) = f ++ breadthFirst (g ++ f.flatMap children) := by
  obtain ⟨n, hn⟩ : ∃ n, heightAll f + heightAll g ≤ n := ⟨_, le_rfl⟩
  induction n generalizing f g with
  | zero =>
    obtain rfl := heightAll_eq_zero.mp (show heightAll f = 0 by omega)
    simp
  | succ n ih =>
    rcases f.eq_nil_or_concat' with rfl | ⟨f', t, rfl⟩
    · simp
    · have hpos : heightAll (f' ++ [t]) ≠ 0 := by simp [heightAll_eq_zero]
      rw [breadthFirst_eq, ih g, List.flatMap_append, List.append_assoc]
      rw [heightAll_children]
      omega

/-- What a queue does with its first task. -/
theorem breadthFirst_cons (t : SpawnTree β) (f : List (SpawnTree β)) :
    breadthFirst (t :: f) = t :: breadthFirst (f ++ t.children) := by
  simpa using breadthFirst_append [t] f

theorem depthFirst_eq (t : SpawnTree β) : t.depthFirst = t :: depthFirstAll t.children := by
  cases t
  simp only [depthFirst, children]

theorem depthFirstAll_append : depthFirstAll (f ++ g) = depthFirstAll g ++ depthFirstAll f := by
  induction f with
  | nil => simp [depthFirstAll]
  | cons t f ih => simp only [List.cons_append, depthFirstAll, ih, List.append_assoc]

/-- What a stack does with its top task. -/
theorem depthFirstAll_concat (f : List (SpawnTree β)) (t : SpawnTree β) :
    depthFirstAll (f ++ [t]) = t :: depthFirstAll (f ++ t.children) := by
  simp [depthFirstAll_append, depthFirstAll, depthFirst_eq]

example : (breadthFirst [.node 1 [.node 2 [.node 4 []], .node 3 []], .node 5 []]).map label =
    [1, 5, 2, 3, 4] := by decide

example : (depthFirstAll [.node 1 [.node 2 [.node 4 []], .node 3 []], .node 5 []]).map label =
    [5, 1, 3, 2, 4] := by decide

end Order

/-- A thread that submits the roots of a forest and then starts the scheduler, and the task that
is running: the roots and the children still to be submitted. -/
structure Client (β : Type*) where
  roots : List (SpawnTree β)
  called : Bool
  todo : List (SpawnTree β)

namespace Client

def init (roots : List (SpawnTree β)) : Client β := ⟨roots, false, []⟩

/-- The next root, before the scheduler is started. -/
def submit (c : Client β) : Option (SpawnTree β × Client β) :=
  match c.called, c.roots with
  | false, t :: rest => some (t, { c with roots := rest })
  | _, _ => none

/-- The scheduler is started, once all roots have been submitted. -/
def call (c : Client β) : Option (Client β) :=
  match c.called, c.roots with
  | false, [] => some { c with called := true }
  | _, _ => none

/-- A task begins. -/
def start (c : Client β) : Option (SpawnTree β) → Client β
  | some t => { c with todo := t.children }
  | none => c

/-- The running task submits its next child. -/
def spawn (c : Client β) : Option (SpawnTree β × Client β) :=
  match c.todo with
  | t :: rest => some (t, { c with todo := rest })
  | [] => none

/-- The running task returns, once all its children have been submitted. -/
def finish (c : Client β) : Option (Client β) :=
  match c.todo with
  | [] => some c
  | _ => none

variable {c c' : Client β} {t : SpawnTree β}

theorem submit_eq (h : c.submit = some (t, c')) :
    c.called = false ∧ c.roots = t :: c'.roots ∧ c'.called = false ∧ c'.todo = c.todo := by
  obtain ⟨roots, called, todo⟩ := c
  cases called <;> cases roots <;> simp only [submit, reduceCtorEq, Option.some.injEq,
    Prod.mk.injEq] at h
  obtain ⟨rfl, rfl⟩ := h
  exact ⟨rfl, rfl, rfl, rfl⟩

theorem call_eq (h : c.call = some c') :
    c.called = false ∧ c.roots = [] ∧ c'.roots = [] ∧ c'.called = true ∧ c'.todo = c.todo := by
  obtain ⟨roots, called, todo⟩ := c
  cases called <;> cases roots <;> simp only [call, reduceCtorEq, Option.some.injEq] at h
  subst h
  exact ⟨rfl, rfl, rfl, rfl, rfl⟩

theorem spawn_eq (h : c.spawn = some (t, c')) :
    c.todo = t :: c'.todo ∧ c'.roots = c.roots ∧ c'.called = c.called := by
  obtain ⟨roots, called, todo⟩ := c
  cases todo <;> simp only [spawn, reduceCtorEq, Option.some.injEq, Prod.mk.injEq] at h
  obtain ⟨rfl, rfl⟩ := h
  exact ⟨rfl, rfl, rfl⟩

theorem finish_eq (h : c.finish = some c') : c' = c ∧ c.todo = [] := by
  obtain ⟨roots, called, todo⟩ := c
  cases todo <;> simp only [finish, reduceCtorEq, Option.some.injEq] at h
  exact ⟨h.symm, rfl⟩

@[simp] theorem start_roots (c : Client β) (t : Option (SpawnTree β)) :
    (c.start t).roots = c.roots := by cases t <;> rfl

@[simp] theorem start_called (c : Client β) (t : Option (SpawnTree β)) :
    (c.start t).called = c.called := by cases t <;> rfl

/-- A task that begins is the first of the breadth-first order, when it was the first in line. -/
theorem breadthFirst_start {x : Option (SpawnTree β)} (L : List (SpawnTree β))
    (h : x ≠ none → c.todo = [] ∧ c.roots = []) :
    breadthFirst (x.toList ++ L ++ c.todo ++ c.roots) =
      x.toList ++ breadthFirst (L ++ (c.start x).todo ++ (c.start x).roots) := by
  cases x with
  | none => rfl
  | some t =>
    obtain ⟨htodo, hroots⟩ := h (by simp)
    simp [htodo, hroots, start, breadthFirst_cons]

/-- A task that begins is the first of the depth-first order, when it was the top of the stack. -/
theorem depthFirst_start {x : Option (SpawnTree β)} (L : List (SpawnTree β))
    (htodo : c.todo = []) (hroots : c.roots = []) :
    depthFirstAll (L ++ x.toList) =
      x.toList ++ depthFirstAll (L ++ (c.start x).todo ++ (c.start x).roots) := by
  cases x with
  | none => simp [start, htodo, hroots]
  | some t => simp [start, hroots, depthFirstAll_concat]

end Client
end SpawnForest
