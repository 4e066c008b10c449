import LuaTyping.Tree.Annotation
import LuaTyping.Ty.Union

/-!
# Types of annotations

The type that a type expression stands for. The names of primitive types are those types, names of
type parameters in scope are type parameters, and any other name is a reference to be looked up
later.
-/

set_option autoImplicit false

namespace LuaTyping

/-- Several returned types as one: none is `nil`, one is itself, more are a tuple. -/
def Ty.ofReturns : List Ty → Ty
  | [] => .nil
  | [ty] => ty
  | tys => .tuple tys

namespace TypeExpr

/-- The type a name stands for. -/
def lowerName (generics : List String) (text : String) (args : List Ty) : Ty :=
  match text with
  | "" | "any" | "unknown" => .unknown
  | "nil" | "void" => .nil
  | "boolean" | "bool" => .boolean
  | "number" | "integer" => .number
  | "string" => .string
  | "table" => Ty.table
  | "function" => Ty.anyFunction
  | text => if generics.contains text then .generic text else .aliasRef text args

mutual

/-- The type an expression stands for, where `generics` are the type parameters in scope. -/
def lower (generics : List String) : TypeExpr → Ty
  | .name text args => lowerName generics text (lowerList generics args)
  | .array element => .array (lower generics element)
  | .union alts => Ty.unionOf (lowerList generics alts)
  | .function params returns variadic =>
    .function ((lowerFields generics params).map Prod.snd)
      (Ty.ofReturns (lowerList generics returns)) variadic []
  | .table fields =>
    .record []
      ((lowerFields generics fields).foldl
        (fun members field => putMember members (Member.ofTy field.1 field.2)) [])
  | .literal text => .literal text
  | .tuple elements => .tuple (lowerList generics elements)
  | .missing => .unknown
termination_by structural expr => expr

/-- `lower` over a list of expressions. -/
def lowerList (generics : List String) : List TypeExpr → List Ty
  | [] => []
  | expr :: rest => lower generics expr :: lowerList generics rest
termination_by structural exprs => exprs

/-- `lower` over named expressions. -/
def lowerFields (generics : List String) : List (String × TypeExpr) → List (String × Ty)
  | [] => []
  | (field, expr) :: rest => (field, lower generics expr) :: lowerFields generics rest
termination_by structural fields => fields

end

/-- The type of a documented list of returns. -/
def lowerReturns (generics : List String) (exprs : List TypeExpr) : Ty :=
  Ty.ofReturns (lowerList generics exprs)

end TypeExpr

end LuaTyping
