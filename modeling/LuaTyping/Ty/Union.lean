import LuaTyping.Ty.Subtype

/-!
# Unions

Every union is built here, which is what makes unions well formed: flat, without repetition, without
the unknown type, with at least two alternatives, and without an alternative that another one
already covers.

An alternative is dropped when it is below an earlier one that was kept, or below a later one that
is not below it in turn; so of two alternatives below each other the first stays.
-/

set_option autoImplicit false

namespace LuaTyping

namespace Union

/-- Adds a type at the end unless an equal one is there. -/
def pushUnique (tys : List Ty) (ty : Ty) : List Ty :=
  if ty.memOf tys then tys else tys ++ [ty]

/-- The alternatives of all the types, in order, each once. -/
def flatten (tys : List Ty) : List Ty :=
  (tys.flatMap Ty.alternatives).foldl pushUnique []

/-- The known types, if there are any. -/
def dropUnknown (tys : List Ty) : List Ty :=
  if tys.any Ty.isKnown then tys.filter Ty.isKnown else tys

section Collapse

variable {m : Type → Type} [Monad m] (rules : Subtyping.Rules m)

/-- Whether `ty` is below one of the `kept` types before it, or strictly below one after it. -/
def covered (kept later : List Ty) (ty : Ty) : Subtyping.CompareM m Bool := do
  if ← kept.anyM fun other => Subtyping.compare rules ty other then pure true
  else
    later.anyM fun other => do
      if ← Subtyping.compare rules ty other then
        pure !(← Subtyping.compare rules other ty)
      else pure false

/-- The types of `kept` and those of the list that nothing covers. -/
def collapse (kept : List Ty) : List Ty → Subtyping.CompareM m (List Ty)
  | [] => pure kept
  | ty :: later => do
    if ← covered rules kept later ty then collapse kept later
    else collapse (kept ++ [ty]) later

end Collapse

/-- A list of alternatives as one type. -/
def ofAlternatives : List Ty → Ty
  | [ty] => ty
  | tys => .union tys

end Union

namespace Ty

/-- The union of any number of types, where the resolver supplies inherited supertypes and
members. -/
def unionWith {m : Type → Type} [Monad m] (resolver : Resolver m) (tys : List Ty) : m Ty :=
  match Union.dropUnknown (Union.flatten tys) with
  | [] => pure .unknown
  | [ty] => pure ty
  | flat => do
    let kept ← (Union.collapse ⟨resolver, true⟩ [] flat).run' Subtyping.freshGuard
    pure (Union.ofAlternatives kept)

/-- The union of any number of types, by what the types themselves say about classes. The union of
none is unknown. -/
def unionOf (tys : List Ty) : Ty := Id.run (unionWith Resolver.blind tys)

/-- The type without `nil` among its alternatives. Nothing is known of a value that is `nil` and
nothing else. -/
def withoutNil : Ty → Ty
  | .nil => .unknown
  | .union alts => unionOf (alts.filter fun alt => !alt.isNil)
  | ty => ty

mutual

/-- The type with literals widened to the type they belong to. Only alternatives are widened, not
what stands inside a compound type. -/
def widen : Ty → Ty
  | .literal _ => .string
  | .union alts => unionOf (widenList alts)
  | ty => ty
termination_by structural ty => ty

/-- `widen` over a list of types. -/
def widenList : List Ty → List Ty
  | [] => []
  | ty :: rest => widen ty :: widenList rest
termination_by structural tys => tys

end

end Ty

end LuaTyping
