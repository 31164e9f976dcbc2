import TaskScheduler.DequeArray
import TaskScheduler.Transition

/-!
# ChaseLevDeque

The owner's `push_bottom` and `pop_bottom` and any number of concurrent `steal`
calls, one shared access per transition. Fences order accesses that are already
interleaved sequentially here, so they take no step. Indices are unbounded
integers: by `index_bounds` they stay between `-1` and the number of pushes, so the
64-bit counters of the source do not wrap in a run with fewer than `2 ^ 63` pushes.
-/
namespace TaskScheduler.Deque
open Transition

/-- The shared words of the deque. Arrays are named by the order of their allocation:
`heap` holds every array allocated so far, `array` the live one. -/
structure Shared (α : Type*) where
  top : ℤ
  bot : ℤ
  heap : ℕ → CircularArray α
  allocated : ℕ
  array : ℕ
  oldArrays : List ℕ

def kInitialLog2Cap : ℕ := 8

def Shared.live {α : Type*} (m : Shared α) : CircularArray α := m.heap m.array

/-- Overwrite the array at an address, one slot of it or a fresh allocation. -/
def Shared.write {α : Type*} (m : Shared α) (a : ℕ) (c : CircularArray α) : Shared α :=
  { m with heap := Function.update m.heap a c }

/-- The owner between two shared accesses: the access it makes next, with its locals. -/
inductive OwnerPc (α : Type*)
  | idle
  | pushLoadBot (task : α)
  | pushLoadTop (task : α) (b : ℤ)
  | pushLoadArray (task : α) (b t : ℤ)
  | growCopy (task : α) (b : ℤ) (a next : ℕ) (i : ℤ)
  | growKeep (task : α) (b : ℤ) (a next : ℕ)
  | growStore (task : α) (b : ℤ) (next : ℕ)
  | pushPut (task : α) (b : ℤ) (a : ℕ)
  | pushStoreBot (task : α) (b : ℤ)
  | popLoadBot
  | popLoadArray (b : ℤ)
  | popStoreBot (b : ℤ) (a : ℕ)
  | popLoadTop (b : ℤ) (a : ℕ)
  | popRestoreBot (b : ℤ)
  | popGet (b : ℤ) (a : ℕ) (t : ℤ)
  | popCas (b t : ℤ) (raw : Option α)
  | popRaiseBot (b : ℤ) (won : Bool) (raw : Option α)

inductive ThiefPc (α : Type*)
  | idle
  | loadTop
  | loadBot (t : ℤ)
  | loadArray (t : ℤ)
  | get (t : ℤ) (a : ℕ)
  | cas (t : ℤ) (raw : Option α)

structure StealResult (α : Type*) where
  task : Option α
  empty : Bool

variable {α Thief : Type*}

section Write
variable (m : Shared α) {a a' : ℕ} (c : CircularArray α)

@[simp] theorem write_top : (m.write a c).top = m.top := rfl
@[simp] theorem write_bot : (m.write a c).bot = m.bot := rfl
@[simp] theorem write_array : (m.write a c).array = m.array := rfl
@[simp] theorem write_oldArrays : (m.write a c).oldArrays = m.oldArrays := rfl
@[simp] theorem write_allocated : (m.write a c).allocated = m.allocated := rfl

@[simp] theorem write_heap_self : (m.write a c).heap a = c := Function.update_self _ _ _

theorem write_heap_of_ne (h : a' ≠ a) : (m.write a c).heap a' = m.heap a' :=
  Function.update_of_ne h _ _

theorem write_live_of_ne (h : m.array ≠ a) : (m.write a c).live = m.live :=
  write_heap_of_ne m c h

@[simp] theorem write_live_self : (m.write m.array c).live = c := write_heap_self m c

end Write

/-- The owner's next access. The last component is what `pop_bottom` returns, when this
access is its last one. -/
def ownerStep (m : Shared α) : OwnerPc α → Shared α × OwnerPc α × Option (Option α)
  | .idle => (m, .idle, none)
  | .pushLoadBot task => (m, .pushLoadTop task m.bot, none)
  | .pushLoadTop task b => (m, .pushLoadArray task b m.top, none)
  | .pushLoadArray task b t =>
    let a := m.array
    if b - t ≥ (m.heap a).capacity - 1 then
      -- `new CircularArray(log2_cap_ + 1)`; the copying loop starts at `t`
      let fresh := CircularArray.new ((m.heap a).log2Cap + 1)
      ({ m.write m.allocated fresh with allocated := m.allocated + 1 },
        .growCopy task b a m.allocated t, none)
    else (m, .pushPut task b a, none)
  | .growCopy task b a next i =>
    if i < b then
      (m.write next ((m.heap next).put i ((m.heap a).get i)), .growCopy task b a next (i + 1), none)
    else (m, .growKeep task b a next, none)
  | .growKeep task b a next =>
    ({ m with oldArrays := m.oldArrays ++ [a] }, .growStore task b next, none)
  | .growStore task b next => ({ m with array := next }, .pushPut task b next, none)
  | .pushPut task b a =>
    (m.write a ((m.heap a).put b (some task)), .pushStoreBot task b, none)
  | .pushStoreBot _ b => ({ m with bot := b + 1 }, .idle, none)
  | .popLoadBot => (m, .popLoadArray (m.bot - 1), none)
  | .popLoadArray b => (m, .popStoreBot b m.array, none)
  | .popStoreBot b a => ({ m with bot := b }, .popLoadTop b a, none)
  | .popLoadTop b a =>
    let t := m.top
    if t > b then (m, .popRestoreBot b, none) else (m, .popGet b a t, none)
  | .popRestoreBot b => ({ m with bot := b + 1 }, .idle, some none)
  | .popGet b a t =>
    let raw := (m.heap a).get b
    if t < b then (m, .idle, some raw) else (m, .popCas b t raw, none)
  | .popCas b t raw =>
    if m.top = t then ({ m with top := t + 1 }, .popRaiseBot b true raw, none)
    else (m, .popRaiseBot b false raw, none)
  | .popRaiseBot b won raw =>
    ({ m with bot := b + 1 }, .idle, some (if won then raw else none))

/-- A thief's next access, and what `steal` returns when it is the last one. -/
def thiefStep (m : Shared α) : ThiefPc α → Shared α × ThiefPc α × Option (StealResult α)
  | .idle => (m, .idle, none)
  | .loadTop => (m, .loadBot m.top, none)
  | .loadBot t =>
    if t ≥ m.bot then (m, .idle, some ⟨none, true⟩) else (m, .loadArray t, none)
  | .loadArray t => (m, .get t m.array, none)
  | .get t a => (m, .cas t ((m.heap a).get t), none)
  | .cas t raw =>
    if m.top = t then ({ m with top := t + 1 }, .idle, some ⟨raw, false⟩)
    else (m, .idle, some ⟨none, false⟩)

structure State (Thief α : Type*) where
  mem : Shared α
  owner : OwnerPc α
  thief : Thief → ThiefPc α

inductive Action (Thief α : Type*)
  | push (task : α)
  | pop
  | owner
  | steal (i : Thief)
  | thief (i : Thief)

variable [DecidableEq Thief]

/-- The owner calls one operation at a time, each thief one `steal` at a time. -/
def step (s : State Thief α) : Action Thief α → Option (State Thief α)
  | .push task =>
    match s.owner with
    | .idle => some { s with owner := .pushLoadBot task }
    | _ => none
  | .pop =>
    match s.owner with
    | .idle => some { s with owner := .popLoadBot }
    | _ => none
  | .owner =>
    match s.owner with
    | .idle => none
    | pc => some { s with mem := (ownerStep s.mem pc).1, owner := (ownerStep s.mem pc).2.1 }
  | .steal i =>
    match s.thief i with
    | .idle => some { s with thief := Function.update s.thief i .loadTop }
    | _ => none
  | .thief i =>
    match s.thief i with
    | .idle => none
    | pc => some { s with
        mem := (thiefStep s.mem pc).1
        thief := Function.update s.thief i (thiefStep s.mem pc).2.1 }

def initShared : Shared α :=
  { top := 0
    bot := 0
    heap := fun _ => .new kInitialLog2Cap
    allocated := 1
    array := 0
    oldArrays := [] }

def machine (Thief α : Type*) [DecidableEq Thief] : Machine (State Thief α) (Action Thief α) where
  init := { mem := initShared, owner := .idle, thief := fun _ => .idle }
  step := step

/-- No call is in progress. -/
def Quiescent (s : State Thief α) : Prop := s.owner = .idle ∧ ∀ i, s.thief i = .idle

/-- What `pop_bottom` returns at this step, if it returns here. -/
def popReturn (s : State Thief α) : Action Thief α → Option (Option α)
  | .owner => (ownerStep s.mem s.owner).2.2
  | _ => none

/-- What the `steal` of some thief returns at this step, if one returns here. -/
def stealReturn (s : State Thief α) : Action Thief α → Option (StealResult α)
  | .thief i => (thiefStep s.mem (s.thief i)).2.2
  | _ => none

/-- The task whose push is published by this step, the store of `bot_`. -/
def pushed (s : State Thief α) : Action Thief α → Option α
  | .owner =>
    match s.owner with
    | .pushStoreBot task _ => some task
    | _ => none
  | _ => none

/-- A task handed to a caller by this step. -/
def returned (s : State Thief α) (a : Action Thief α) : Option α :=
  ((popReturn s a).join).or ((stealReturn s a).bind StealResult.task)

end TaskScheduler.Deque
