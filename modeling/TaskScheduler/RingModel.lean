import TaskScheduler.Transition

/-!
# The ring of LockFreeQueueScheduler

`enqueue` and `dequeue`, one atomic access per transition, for any set of threads and a
ring of `2 ^ log2Ring` slots. Cursors and sequence numbers are 64-bit.
-/
namespace TaskScheduler.LockFree
open Transition

/-- The value of a `uint64_t` after an operation with this exact result. -/
def uint64 (x : ℕ) : ℕ := x % 2 ^ 64

/-- The value of an `int64_t` after an operation with this exact result. -/
def int64 (x : ℤ) : ℤ := x.bmod (2 ^ 64)

def kRingSize (log2Ring : ℕ) : ℕ := 2 ^ log2Ring

def kMask (log2Ring : ℕ) : ℕ := kRingSize log2Ring - 1

/-- The index of the slot of a position. -/
def slot (log2Ring pos : ℕ) : ℕ := pos &&& kMask log2Ring

namespace Ring

/-- A thread inside `enqueue` (from `reserve` to `publish`) or inside `dequeue`; `returned` is
a `dequeue` whose result the caller has not taken yet. -/
inductive Pc (α : Type*)
  | idle
  | reserve (task : α)
  | await (pos : ℕ) (task : α)
  | store (pos : ℕ) (task : α)
  | publish (pos : ℕ)
  | loadTail
  | loadSequence (pos : ℕ)
  | claim (pos : ℕ)
  | exchange (pos : ℕ)
  | release (pos : ℕ) (raw : Option α)
  | returned (task : Option α)
deriving DecidableEq

def Pc.isIdle {α : Type*} : Pc α → Bool
  | .idle => true
  | _ => false

def Pc.isEnqueue {α : Type*} : Pc α → Bool
  | .reserve _ | .await _ _ | .store _ _ | .publish _ => true
  | _ => false

def Pc.isDequeue {α : Type*} : Pc α → Bool
  | .loadTail | .loadSequence _ | .claim _ | .exchange _ | .release _ _ | .returned _ => true
  | _ => false

theorem Pc.not_isDequeue {α : Type*} {pc : Pc α} (h : pc.isEnqueue) : ¬ pc.isDequeue := by
  cases pc <;> simp [Pc.isEnqueue, Pc.isDequeue] at h ⊢

structure State (θ α : Type*) where
  head : ℕ
  tail : ℕ
  sequence : ℕ → ℕ
  payload : ℕ → Option α
  threads : θ → Pc α

/-- The thread that moves; `spurious` makes its `compare_exchange_weak` fail without cause. -/
inductive Action (θ α : Type*)
  | enqueue (t : θ) (task : α)
  | dequeue (t : θ)
  | access (t : θ) (spurious : Bool)
  | finish (t : θ)

def Action.thread {θ α : Type*} : Action θ α → θ
  | .enqueue t _ | .dequeue t | .access t _ | .finish t => t

variable {θ α : Type*}

def State.setSequence (s : State θ α) (j seq : ℕ) : State θ α :=
  { s with sequence := Function.update s.sequence j seq }

def State.setPayload (s : State θ α) (j : ℕ) (raw : Option α) : State θ α :=
  { s with payload := Function.update s.payload j raw }

theorem setSequence_self (s : State θ α) (j seq : ℕ) : (s.setSequence j seq).sequence j = seq :=
  Function.update_self _ _ _

theorem setSequence_of_ne (s : State θ α) {i j : ℕ} (h : i ≠ j) (seq : ℕ) :
    (s.setSequence j seq).sequence i = s.sequence i := Function.update_of_ne h _ _

theorem setPayload_self (s : State θ α) (j : ℕ) (raw : Option α) :
    (s.setPayload j raw).payload j = raw := Function.update_self _ _ _

theorem setPayload_of_ne (s : State θ α) {i j : ℕ} (h : i ≠ j) (raw : Option α) :
    (s.setPayload j raw).payload i = s.payload i := Function.update_of_ne h _ _

/-- `static_cast<int64_t>(seq) - static_cast<int64_t>(pos + 1)`. -/
def diff (seq pos : ℕ) : ℤ := int64 (int64 seq - int64 (uint64 (pos + 1)))

variable [DecidableEq θ]

def State.goto (s : State θ α) (t : θ) (pc : Pc α) : State θ α :=
  { s with threads := Function.update s.threads t pc }

@[simp] theorem goto_head (s : State θ α) (t : θ) (pc : Pc α) : (s.goto t pc).head = s.head := rfl
@[simp] theorem goto_tail (s : State θ α) (t : θ) (pc : Pc α) : (s.goto t pc).tail = s.tail := rfl
@[simp] theorem goto_threads (s : State θ α) (t : θ) (pc : Pc α) :
    (s.goto t pc).threads = Function.update s.threads t pc := rfl

theorem goto_self (s : State θ α) (t : θ) (pc : Pc α) : (s.goto t pc).threads t = pc :=
  Function.update_self _ _ _

/-- The next access of the thread. -/
def access (log2Ring : ℕ) (s : State θ α) (t : θ) (spurious : Bool) : Option (State θ α) :=
  match s.threads t with
  | .reserve task => some ({ s with head := uint64 (s.head + 1) }.goto t (.await s.head task))
  | .await pos task =>
    if s.sequence (slot log2Ring pos) = pos then some (s.goto t (.store pos task)) else some s
  | .store pos task => some ((s.setPayload (slot log2Ring pos) (some task)).goto t (.publish pos))
  | .publish pos => some ((s.setSequence (slot log2Ring pos) (uint64 (pos + 1))).goto t .idle)
  | .loadTail => some (s.goto t (.loadSequence s.tail))
  | .loadSequence pos =>
    let d := diff (s.sequence (slot log2Ring pos)) pos
    if d = 0 then some (s.goto t (.claim pos))
    else if d < 0 then some (s.goto t (.returned none))
    else some (s.goto t .loadTail)
  | .claim pos =>
    if s.tail = pos ∧ spurious = false then
      some ({ s with tail := uint64 (pos + 1) }.goto t (.exchange pos))
    else some (s.goto t (.loadSequence s.tail))
  | .exchange pos =>
    some ((s.setPayload (slot log2Ring pos) none).goto t
      (.release pos (s.payload (slot log2Ring pos))))
  | .release pos raw =>
    some ((s.setSequence (slot log2Ring pos) (uint64 (pos + kRingSize log2Ring))).goto t
      (.returned raw))
  | _ => none

def step (log2Ring : ℕ) (s : State θ α) : Action θ α → Option (State θ α)
  | .enqueue t task =>
    match s.threads t with
    | .idle => some (s.goto t (.reserve task))
    | _ => none
  | .dequeue t =>
    match s.threads t with
    | .idle => some (s.goto t .loadTail)
    | _ => none
  | .access t spurious => access log2Ring s t spurious
  | .finish t =>
    match s.threads t with
    | .returned _ => some (s.goto t .idle)
    | _ => none

def machine (θ α : Type*) [DecidableEq θ] (log2Ring : ℕ) : Machine (State θ α) (Action θ α) where
  init :=
    { head := 0
      tail := 0
      sequence := fun i => i
      payload := fun _ => none
      threads := fun _ => .idle }
  step := step log2Ring

/-- The task that reserves the next position by this step. -/
def reserved (s : State θ α) : Action θ α → Option α
  | .access t _ =>
    match s.threads t with
    | .reserve task => some task
    | _ => none
  | _ => none

/-- The position that this step claims, by moving `tail_` past it. -/
def claimed (s : State θ α) : Action θ α → Option ℕ
  | .access t spurious =>
    match s.threads t with
    | .claim pos => if s.tail = pos ∧ spurious = false then some pos else none
    | _ => none
  | _ => none

/-- The position whose payload this step takes out of the slot. -/
def taken (s : State θ α) : Action θ α → Option ℕ
  | .access t _ =>
    match s.threads t with
    | .exchange pos => some pos
    | _ => none
  | _ => none

/-- The position claimed by the `dequeue` that returns its task by this step, and the task. -/
def delivered (s : State θ α) : Action θ α → Option (ℕ × Option α)
  | .access t _ =>
    match s.threads t with
    | .release pos raw => some (pos, raw)
    | _ => none
  | _ => none

/-- The task that this call of `enqueue` brings. -/
def enqueued (_ : State θ α) : Action θ α → Option α
  | .enqueue _ task => some task
  | _ => none

/-- The task that the caller of `dequeue` receives by this step. -/
def fetched (s : State θ α) : Action θ α → Option α
  | .finish t =>
    match s.threads t with
    | .returned task => task
    | _ => none
  | _ => none

end Ring
end TaskScheduler.LockFree
