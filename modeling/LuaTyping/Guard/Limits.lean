/-!
# Limits

The hard stops of the analysis, in one place. Exceeding one never fails a query: the branch that
does so resolves to the unknown type.
-/

set_option autoImplicit false

namespace LuaTyping.Limits

/-- Default nesting depth of expression inference. -/
def expressionDepth : Nat := 500

/-- Nested alias expansions. -/
def aliasExpansionDepth : Nat := 50

/-- Classes examined along a chain of supertypes. -/
def supertypeChain : Nat := 64

/-- Steps up a chain of scopes or parents, which bounds the walk when the links form a cycle. -/
def treeWalk : Nat := 10000

/-- Candidates considered for one reference. -/
def candidates : Nat := 64

/-- The largest value of a 32-bit counter. -/
def counterMax : Nat := 4294967295

end LuaTyping.Limits
