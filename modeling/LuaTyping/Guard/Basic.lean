import LuaTyping.Guard.Profile

/-!
# Recursion guards

A guard keeps a recursive computation finite in three ways: it notices a key that is already being
computed, it bounds how many keys are active at once, and it bounds how often entry is attempted.

It also remembers how far out a noticed cycle reached. When a deep key runs into one that was
entered further out, every key between the two was computed against an unfinished value. Leaving
such a key reports it as provisional, so that its result is not kept. One number does the
bookkeeping, the *cycle floor*: the least position on the stack that a cycle has reached since the
innermost active key was entered. Entering saves the floor in the new frame and clears it; leaving
merges what is left of it with the saved one.

Leaving is expected in the reverse order of entering. Out of order, the named key is forgotten
while the topmost frame is dropped; the two parts of the guard are kept apart here so that this
stays well defined.
-/

set_option autoImplicit false

namespace LuaTyping

/-- The answer to an attempt to enter. -/
inductive Admission where
  /-- The computation may proceed. -/
  | entered
  /-- The key is already being computed. -/
  | cycle
  /-- Too many keys are active. -/
  | depthExceeded
  /-- Entry was attempted too often. -/
  | iterationExceeded
deriving DecidableEq, Inhabited, Repr

namespace Admission

def isEntered : Admission → Bool
  | .entered => true
  | _ => false

def isCycle : Admission → Bool
  | .cycle => true
  | _ => false

def isExceeded : Admission → Bool
  | .depthExceeded | .iterationExceeded => true
  | _ => false

def isDenied (answer : Admission) : Bool := !answer.isEntered

end Admission

/-- The lesser of two positions, where a missing one does not count. -/
def lowest : Option Nat → Option Nat → Option Nat
  | some a, some b => some (min a b)
  | some a, none => some a
  | none, b => b

/-- The state of a guard over keys of type `κ`. -/
structure Guard (κ : Type) where
  /-- The active keys, each with its position on the stack. -/
  visiting : List (κ × Nat)
  /-- The cycle floors saved by the active frames, innermost first. -/
  frames : List (Option Nat)
  /-- The least position a cycle has reached since the innermost frame was entered. -/
  cycleFloor : Option Nat
  /-- The attempts to enter so far, successful or not. -/
  iterations : Nat
  maxDepth : Nat
  maxIterations : Nat
  /-- Whether a limit was ever met. It stays set until `reset`. -/
  exceeded : Bool
deriving Inhabited

namespace Guard

variable {κ : Type}

/-- A guard with nothing active. -/
def withLimits (maxDepth maxIterations : Nat) : Guard κ :=
  { visiting := [], frames := [], cycleFloor := none, iterations := 0,
    maxDepth, maxIterations, exceeded := false }

/-- A guard with the limits of a profile. -/
def ofProfile (profile : Profile) : Guard κ :=
  withLimits profile.maxDepth profile.maxIterations

/-- The number of active frames. -/
def depth (guard : Guard κ) : Nat := guard.frames.length

def isActive (guard : Guard κ) : Bool := !guard.frames.isEmpty

/-- Records that a limit was met. -/
def markExceeded (guard : Guard κ) : Guard κ := { guard with exceeded := true }

/-- The guard as it was made, with the same limits. -/
def reset (guard : Guard κ) : Guard κ := withLimits guard.maxDepth guard.maxIterations

variable [BEq κ]

/-- The stack position of an active key. -/
def position? (guard : Guard κ) (key : κ) : Option Nat :=
  guard.visiting.lookup key

def isVisiting (guard : Guard κ) (key : κ) : Bool := (guard.position? key).isSome

/-- Tries to enter the computation of `key`. Every attempt counts towards the iteration limit,
which is tested first, then the depth limit, then whether the key is active. -/
def enter (guard : Guard κ) (key : κ) : Admission × Guard κ :=
  let counted := { guard with iterations := min (guard.iterations + 1) Limits.counterMax }
  if counted.iterations > counted.maxIterations then
    (.iterationExceeded, counted.markExceeded)
  else if counted.frames.length ≥ counted.maxDepth then
    (.depthExceeded, counted.markExceeded)
  else
    match counted.position? key with
    | some index => (.cycle, { counted with cycleFloor := lowest counted.cycleFloor (some index) })
    | none =>
      (.entered,
        { counted with
          visiting := (key, counted.frames.length) :: counted.visiting
          frames := counted.cycleFloor :: counted.frames
          cycleFloor := none })

/-- Leaves the computation of `key`, and says whether a cycle was cut on an entry outside it while
it was active. A key that is not active leaves nothing. -/
def leave (guard : Guard κ) (key : κ) : Bool × Guard κ :=
  match guard.position? key with
  | none => (false, guard)
  | some index =>
    let carried := guard.cycleFloor.filter fun floor => decide (floor < index)
    (carried.isSome,
      { guard with
        visiting := guard.visiting.eraseP fun entry => entry.1 == key
        frames := guard.frames.tail
        cycleFloor := lowest (guard.frames.head?.getD none) carried })

/-- Runs `body` inside `key`, or says why entry was denied. -/
def scope {α : Type} (guard : Guard κ) (key : κ) (body : α) : Except Admission α × Guard κ :=
  match guard.enter key with
  | (.entered, inside) => (.ok body, (inside.leave key).2)
  | (denied, outside) => (.error denied, outside)

end Guard

end LuaTyping
