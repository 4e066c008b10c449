import LuaTyping.Guard.Limits

/-!
# Inference options

The settings that change what is inferred.
-/

set_option autoImplicit false

namespace LuaTyping

/-- The settings of a query. -/
structure Options where
  /-- Whether `nil` is a type like any other; otherwise it is assignable to every type. -/
  nilStrict : Bool
  /-- Whether a type name that is neither class nor alias may stand for a global table. -/
  globalNamesAsTypes : Bool
  /-- Whether calls bind type parameters; otherwise type parameters are unknown. -/
  genericsEnabled : Bool
  /-- The members taken for constructors when their result is otherwise unknown. -/
  constructorNames : List String
  /-- How deep declarations, and expressions, may be nested. -/
  maxDepth : Nat
deriving DecidableEq, Repr

namespace Options

/-- The settings where none are given. -/
def standard : Options :=
  { nilStrict := false, globalNamesAsTypes := true, genericsEnabled := true,
    constructorNames := ["new", "get"], maxDepth := Limits.expressionDepth }

instance : Inhabited Options := ⟨standard⟩

def isConstructorName (options : Options) (name : String) : Bool :=
  options.constructorNames.contains name

end Options

end LuaTyping
