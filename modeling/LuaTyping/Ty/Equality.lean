import LuaTyping.Ty.Basic

/-!
# Equality of types

Types are equal up to what does not matter about them. A named class is its name. Records are equal
when they have as many members and each member of one has an equal member of that name in the
other; where a member stands, who may see it and where it was declared play no part. Unions are
sets: equally long, and every alternative of one occurs in the other. Everything else is compared
part by part.

On types whose unions have distinct alternatives and whose members have distinct names this is an
equivalence; the one-sided tests suffice there because the lengths agree.
-/

set_option autoImplicit false

namespace LuaTyping.Ty

mutual

/-- Equality of two types. -/
def eqv : Ty → Ty → Bool
  | .unknown, .unknown => true
  | .nil, .nil => true
  | .boolean, .boolean => true
  | .number, .number => true
  | .string, .string => true
  | .literal s, .literal t => s == t
  | .function params ret variadic generics, .function params' ret' variadic' generics' =>
    eqvList params params' && eqv ret ret' && variadic == variadic' && generics == generics'
  | .named name _ _, .named name' _ _ => name == name'
  | .record _ members, .record _ members' =>
    members.length == members'.length && membersWithin members members'
  | .union alts, .union alts' => alts.length == alts'.length && allWithin alts alts'
  | .generic name, .generic name' => name == name'
  | .aliasRef name args, .aliasRef name' args' => name == name' && eqvList args args'
  | .array element, .array element' => eqv element element'
  | .tuple elements, .tuple elements' => eqvList elements elements'
  | _, _ => false
termination_by structural a => a

/-- Equality of two lists of types, position by position. -/
def eqvList : List Ty → List Ty → Bool
  | [], [] => true
  | a :: as, b :: bs => eqv a b && eqvList as bs
  | _, _ => false
termination_by structural as => as

/-- Whether every type of the first list has an equal one in the second. -/
def allWithin : List Ty → List Ty → Bool
  | [], _ => true
  | a :: as, bs => bs.any (fun b => eqv a b) && allWithin as bs
termination_by structural as => as

/-- Whether every member of the first list has one of that name and an equal type in the second. -/
def membersWithin : List (Member Ty) → List (Member Ty) → Bool
  | [], _ => true
  | ⟨name, ty, _, _, _⟩ :: rest, others =>
    (match findMember? others name with
      | some other => eqv ty other.ty
      | none => false)
      && membersWithin rest others
termination_by structural members => members

end

/-- Whether the list holds a type equal to `ty`. -/
def memOf (ty : Ty) (tys : List Ty) : Bool := tys.any fun other => eqv other ty

end LuaTyping.Ty
