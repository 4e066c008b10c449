import LuaTyping.Ty.Union

/-!
# Replacing parts of types

A replacement visits a type from the outside in. At each node it may put another type in its place,
which is then left alone; otherwise the node is rebuilt around what has become of its parts. Unions
are built again by `Ty.unionOf`, since replacing can make alternatives equal or let one cover
another.
-/

set_option autoImplicit false

namespace LuaTyping.Ty

section Replace

variable {m : Type → Type} [Monad m]

/-- The replacement that `replace?` gives for a node, or else the rebuilt node. -/
def replaceOr (replace? : Ty → m (Option Ty)) (node : Ty) (rebuilt : m Ty) : m Ty := do
  match ← replace? node with
  | some replacement => pure replacement
  | none => rebuilt

mutual

/-- The type with every outermost node replaced that `replace?` replaces. -/
def replaceM (replace? : Ty → m (Option Ty)) : Ty → m Ty
  | .function params ret variadic generics =>
    replaceOr replace? (.function params ret variadic generics) do
      let params ← replaceListM replace? params
      let ret ← replaceM replace? ret
      pure (.function params ret variadic generics)
  | .named name supers members =>
    replaceOr replace? (.named name supers members) do
      pure (.named name supers (← replaceMembersM replace? members))
  | .record supers members =>
    replaceOr replace? (.record supers members) do
      pure (.record supers (← replaceMembersM replace? members))
  | .union alts =>
    replaceOr replace? (.union alts) do
      pure (unionOf (← replaceListM replace? alts))
  | .aliasRef name args =>
    replaceOr replace? (.aliasRef name args) do
      pure (.aliasRef name (← replaceListM replace? args))
  | .array element =>
    replaceOr replace? (.array element) do
      pure (.array (← replaceM replace? element))
  | .tuple elements =>
    replaceOr replace? (.tuple elements) do
      pure (.tuple (← replaceListM replace? elements))
  | ty => replaceOr replace? ty (pure ty)
termination_by structural ty => ty

/-- `replaceM` over a list of types. -/
def replaceListM (replace? : Ty → m (Option Ty)) : List Ty → m (List Ty)
  | [] => pure []
  | ty :: rest => do
    let ty ← replaceM replace? ty
    let rest ← replaceListM replace? rest
    pure (ty :: rest)
termination_by structural tys => tys

/-- `replaceM` over the types of members. -/
def replaceMembersM (replace? : Ty → m (Option Ty)) :
    List (Member Ty) → m (List (Member Ty))
  | [] => pure []
  | ⟨name, ty, visibility, deprecated, site⟩ :: rest => do
    let ty ← replaceM replace? ty
    let rest ← replaceMembersM replace? rest
    pure (⟨name, ty, visibility, deprecated, site⟩ :: rest)
termination_by structural members => members

end

mutual

/-- The type with every outermost reference replaced by what `expand` makes of it. `expand` is
handed the name and the action that expands the arguments, which it runs if and when it needs
them. -/
def expandRefsM (expand : String → m (List Ty) → m Ty) : Ty → m Ty
  | .function params ret variadic generics => do
    let params ← expandRefsListM expand params
    let ret ← expandRefsM expand ret
    pure (.function params ret variadic generics)
  | .named name supers members => do
    pure (.named name supers (← expandRefsMembersM expand members))
  | .record supers members => do
    pure (.record supers (← expandRefsMembersM expand members))
  | .union alts => do pure (unionOf (← expandRefsListM expand alts))
  | .aliasRef name args => expand name (expandArgsM expand args)
  | .array element => do pure (.array (← expandRefsM expand element))
  | .tuple elements => do pure (.tuple (← expandRefsListM expand elements))
  | ty => pure ty
termination_by structural ty => ty

/-- `expandRefsM` over a list of types. -/
def expandRefsListM (expand : String → m (List Ty) → m Ty) : List Ty → m (List Ty)
  | [] => pure []
  | ty :: rest => do
    let ty ← expandRefsM expand ty
    let rest ← expandRefsListM expand rest
    pure (ty :: rest)
termination_by structural tys => tys

/-- `expandRefsM` over the types of members. -/
def expandRefsMembersM (expand : String → m (List Ty) → m Ty) :
    List (Member Ty) → m (List (Member Ty))
  | [] => pure []
  | ⟨name, ty, visibility, deprecated, site⟩ :: rest => do
    let ty ← expandRefsM expand ty
    let rest ← expandRefsMembersM expand rest
    pure (⟨name, ty, visibility, deprecated, site⟩ :: rest)
termination_by structural members => members

/-- The arguments of a reference, each expanded on its own. One without a reference in it is not
rebuilt. -/
def expandArgsM (expand : String → m (List Ty) → m Ty) : List Ty → m (List Ty)
  | [] => pure []
  | ty :: rest => do
    let ty ← if ty.containsAlias then expandRefsM expand ty else pure ty
    let rest ← expandArgsM expand rest
    pure (ty :: rest)
termination_by structural tys => tys

end

/-- The type with its references expanded. A type without a reference is not rebuilt. -/
def expandM (expand : String → m (List Ty) → m Ty) (ty : Ty) : m Ty :=
  if ty.containsAlias then expandRefsM expand ty else pure ty

end Replace

/-- `replaceM` for a replacement that only looks at the node. -/
def replace (replace? : Ty → Option Ty) (ty : Ty) : Ty :=
  Id.run (replaceM (fun node => pure (replace? node)) ty)

/-- The type with every outermost node equal to `target` replaced, and how many nodes were
looked at. -/
def replaceEqual (target replacement ty : Ty) : Ty × Nat :=
  let visit (node : Ty) : StateM Nat (Option Ty) := do
    modify (· + 1)
    pure (if node.eqv target then some replacement else none)
  (replaceM visit ty).run 0

/-- The type with every type parameter replaced by the unknown type. -/
def eraseGenerics (ty : Ty) : Ty :=
  if ty.containsGeneric then
    ty.replace fun
      | .generic _ => some .unknown
      | _ => none
  else ty

/-- The type with the given type parameters replaced by the unknown type. -/
def eraseOnly (generics : List String) (ty : Ty) : Ty :=
  if generics.isEmpty || !ty.containsGeneric then ty
  else
    ty.replace fun
      | .generic name => if generics.contains name then some .unknown else none
      | _ => none

/-- The type with every reference replaced by the unknown type. -/
def eraseRefs (ty : Ty) : Ty :=
  if ty.containsAlias then
    ty.replace fun
      | .aliasRef _ _ => some .unknown
      | _ => none
  else ty

end LuaTyping.Ty
