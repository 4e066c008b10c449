import LuaTyping.Guard.Limits

/-!
# Limit profiles

Named pairs of limits, so that a use says what it guards instead of repeating numbers.
-/

set_option autoImplicit false

namespace LuaTyping

/-- What a guard is used for. -/
inductive Profile where
  /-- Structural comparison of class and function shapes. -/
  | subtypeCheck
  /-- Binding of type parameters at a call. -/
  | unification
  /-- Expansion of aliases. -/
  | aliasExpansion
  /-- Inference of declarations. -/
  | declarationInference
  /-- Explicit limits. -/
  | custom (maxDepth maxIterations : Nat)
deriving DecidableEq, Inhabited, Repr

namespace Profile

/-- The number of entries that may be active at once. -/
def maxDepth : Profile → Nat
  | .subtypeCheck => 100
  | .unification => 50
  | .aliasExpansion => Limits.aliasExpansionDepth
  | .declarationInference => Limits.expressionDepth
  | .custom depth _ => depth

/-- The number of attempts to enter before every further one is denied. -/
def maxIterations : Profile → Nat
  | .subtypeCheck => 100000
  | .unification => 100000
  | .aliasExpansion => 100000
  | .declarationInference => 1000000
  | .custom _ iterations => iterations

end Profile

end LuaTyping
