import LuaTyping.Text.Quoted
import LuaTyping.Ty.Basic

/-!
# Types as text

The form in which types are shown. A class is its name, a union its alternatives joined by bars, a
function its parameters and result around an arrow. Inside a union or before the brackets of an
array a function or union is put in parentheses, because it would otherwise be read differently.

Long unions are cut after a number of alternatives and end in an ellipsis.
-/

set_option autoImplicit false

namespace LuaTyping.Ty

/-- Whether a type stands where a bare function or union would be ambiguous. -/
inductive Position where
  | free
  | tight
deriving DecidableEq, Inhabited, Repr

/-- Parentheses around a text that stands in a tight position. -/
def parenthesize (position : Position) (text : String) : String :=
  match position with
  | .free => text
  | .tight => "(" ++ text ++ ")"

/-- The number of alternatives shown by default. -/
def defaultShown : Nat := 16

/-- The texts joined by bars, cut to `shown` of them with an ellipsis for the rest. -/
def joinAlternatives (shown : Nat) (texts : List String) : String :=
  if shown < texts.length then "|".intercalate (texts.take shown) ++ "|..."
  else "|".intercalate texts

mutual

/-- The text of a type in a position, where unions show `shown` alternatives. -/
def textAt (shown : Nat) (position : Position) : Ty → String
  | .unknown => "unknown"
  | .nil => "nil"
  | .boolean => "boolean"
  | .number => "number"
  | .string => "string"
  | .literal text => Text.quoted text
  | .named name _ _ => name
  | .record _ _ => tableName
  | .generic name => name
  | .aliasRef name args =>
    if args.isEmpty then name
    else name ++ "<" ++ ", ".intercalate (textsAt shown .free args) ++ ">"
  | .array element => textAt shown .tight element ++ "[]"
  | .tuple elements => "[" ++ ", ".intercalate (textsAt shown .free elements) ++ "]"
  | .union alts => parenthesize position (joinAlternatives shown (textsAt shown .tight alts))
  | .function params ret variadic _ =>
    let rest := if variadic then ["..."] else []
    parenthesize position
      ("(" ++ ", ".intercalate (textsAt shown .free params ++ rest) ++ ") -> "
        ++ textAt shown .free ret)
termination_by structural ty => ty

/-- The texts of a list of types, all in the same position. -/
def textsAt (shown : Nat) (position : Position) : List Ty → List String
  | [] => []
  | ty :: rest => textAt shown position ty :: textsAt shown position rest
termination_by structural tys => tys

end

/-- The text of a type with at most `shown` alternatives of each union, and at least one. -/
def formatWith (shown : Nat) (ty : Ty) : String := textAt (max shown 1) .free ty

/-- The text of a type. -/
def format (ty : Ty) : String := formatWith defaultShown ty

end LuaTyping.Ty
