import LuaTyping.Ty.Bindings

/-!
# Binding type parameters from arguments

A parameter type and an argument type are walked side by side, and each type parameter is bound to
what stands in its place. A parameter that is met again is bound to the union of what was found. An
argument of unknown type says nothing.

Against a union such as `T|nil` the alternatives of the argument that occur in the parameter are
set aside, and the rest is what the type parameters stand for.
-/

set_option autoImplicit false

namespace LuaTyping.Unify

/-- Records that `name` stands for `ty`, beside what it was found to stand for before. -/
def bind (bindings : Bindings) (name : String) (ty : Ty) : Bindings :=
  match bindings.get? name with
  | some bound => bindings.insert name (Ty.unionOf [bound, ty])
  | none => bindings.insert name ty

/-- What is left of an argument once the alternatives that the parameter names outright are set
aside. -/
def remainder? (params : List Ty) (arg : Ty) : Option Ty :=
  let concrete := params.filter fun param => !param.containsGeneric
  match arg.alternatives.filter fun alt => !alt.memOf concrete with
  | [] => none
  | rest => some (Ty.unionOf rest)

mutual

/-- Binds the parameters among `generics` that occur in a parameter type, from an argument type,
looking `levels` deep. -/
def unify (generics : List String) (levels : Nat) : Ty → Ty → Bindings → Bindings
  | param, arg, bindings =>
    match levels with
    | 0 => bindings
    | levels + 1 =>
      if arg.isUnknown then bindings
      else
        match param, arg with
        | .generic name, arg => if generics.contains name then bind bindings name arg else bindings
        | .array element, .array element' => unify generics levels element element' bindings
        | .array element, .tuple elements' =>
          elements'.foldl (fun bindings arg => unify generics levels element arg bindings) bindings
        | .tuple elements, .tuple elements' =>
          unifyList generics levels elements elements' bindings
        | .function params ret _ _, .function params' ret' _ _ =>
          unify generics levels ret ret' (unifyList generics levels params params' bindings)
        | .record _ members, .named _ _ members' =>
          unifyMembers generics levels members members' bindings
        | .record _ members, .record _ members' =>
          unifyMembers generics levels members members' bindings
        | .aliasRef name args, .aliasRef name' args' =>
          if name == name' then unifyList generics levels args args' bindings else bindings
        | .union alts, arg =>
          match remainder? alts arg with
          | some rest => unifyAlternatives generics levels alts rest bindings
          | none => bindings
        | _, _ => bindings
termination_by structural param => param

/-- Unifies parameters and arguments by position. -/
def unifyList (generics : List String) (levels : Nat) : List Ty → List Ty → Bindings → Bindings
  | param :: params, arg :: args, bindings =>
    unifyList generics levels params args (unify generics levels param arg bindings)
  | _, _, bindings => bindings
termination_by structural params => params

/-- Unifies members with those of the same name. -/
def unifyMembers (generics : List String) (levels : Nat) :
    List (Member Ty) → List (Member Ty) → Bindings → Bindings
  | ⟨name, ty, _, _, _⟩ :: rest, others, bindings =>
    let bindings :=
      match findMember? others name with
      | some other => unify generics levels ty other.ty bindings
      | none => bindings
    unifyMembers generics levels rest others bindings
  | [], _, bindings => bindings
termination_by structural members => members

/-- Unifies the alternatives in which a type parameter occurs with one argument. -/
def unifyAlternatives (generics : List String) (levels : Nat) :
    List Ty → Ty → Bindings → Bindings
  | param :: params, arg, bindings =>
    let bindings :=
      if param.containsGeneric then unify generics levels param arg bindings else bindings
    unifyAlternatives generics levels params arg bindings
  | [], _, bindings => bindings
termination_by structural params => params

end

end LuaTyping.Unify

namespace LuaTyping.Bindings

/-- The bindings of `generics` from parameter types and argument types by position. -/
def infer (generics : List String) (params args : List Ty) : Bindings :=
  Unify.unifyList generics Profile.unification.maxDepth params args .empty

/-- The bindings of `generics` from each parameter type against every argument type. -/
def inferFromEach (generics : List String) (params args : List Ty) : Bindings :=
  params.foldl
    (fun bindings param =>
      args.foldl
        (fun bindings arg =>
          Unify.unify generics Profile.unification.maxDepth param arg bindings)
        bindings)
    .empty

end LuaTyping.Bindings
