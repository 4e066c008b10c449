import LuaTyping.Guard.Profile

/-!
# Depth counters

A counter bounds nesting without looking at what is nested: an expression may well be inferred
again inside itself with a different expectation, so only the depth is limited.
-/

set_option autoImplicit false

namespace LuaTyping

/-- How deep a computation is nested, and whether it was ever refused a further level. -/
structure DepthCounter where
  depth : Nat
  maxDepth : Nat
  exceeded : Bool
deriving DecidableEq, Inhabited, Repr

namespace DepthCounter

def withLimit (maxDepth : Nat) : DepthCounter := ⟨0, maxDepth, false⟩

def ofProfile (profile : Profile) : DepthCounter := withLimit profile.maxDepth

/-- Tries to go one level deeper. On refusal the depth stays and must not be left. -/
def enter (counter : DepthCounter) : Bool × DepthCounter :=
  if counter.depth ≥ counter.maxDepth then (false, { counter with exceeded := true })
  else (true, { counter with depth := counter.depth + 1 })

/-- Goes one level up, and stays at the top level. -/
def leave (counter : DepthCounter) : DepthCounter :=
  { counter with depth := counter.depth - 1 }

def reset (counter : DepthCounter) : DepthCounter := withLimit counter.maxDepth

end DepthCounter

end LuaTyping
