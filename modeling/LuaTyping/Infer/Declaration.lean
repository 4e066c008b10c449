import LuaTyping.Infer.Expression

/-!
# Declarations

The type of a declaration. A documented type is authoritative: the initialiser is not looked at.
Otherwise a parameter takes its type from what `self` belongs to or from the call its function is
passed to, and any other declaration from its initialiser.

A table that is bound to a variable has, beside its own fields, the members attached to the
variable elsewhere.
-/

set_option autoImplicit false

namespace LuaTyping.Infer.Rule

variable (ctx : Context)

/-- A type together with the overloads of its declaration. -/
def withOverloads (entry : Entry) (ty : Ty) : Rule Ty := do
  if entry.overloads.isEmpty then pure ty
  else
    let overloads ← entry.overloads.mapM fun overload => ask (.resolve overload)
    pure (Ty.unionOf (ty :: overloads))

/-- A documented function type with the type parameters of its comment. Those of a parameter belong
to the function around it. -/
def withGenerics (entry : Entry) (ty : Ty) : Ty :=
  match ty with
  | .function params ret variadic [] =>
    if entry.kind = .parameter then ty else .function params ret variadic entry.generics
  | ty => ty

/-- The type of an undocumented parameter. -/
def parameterType (key : DeclKey) (entry : Entry) : Rule Ty := do
  match entry.node, entry.owner with
  | none, some (.ofTable table) => ask (.decl ⟨key.file, table⟩)
  | none, some (.ofGlobal name) => globalType ctx name
  | none, some (.ofClass name) => ask (.classValue name)
  | node, _ => do pure ((← contextualParam ctx key.file node).getD .unknown)

/-- The members attached to a variable. -/
def attachedMembers (key : DeclKey) (entry : Entry) : Rule (List DeclKey) := do
  if entry.kind = .global then
    note entry.name
    pure (ctx.snapshot.globalMembers entry.name)
  else pure (ctx.snapshot.tableMembers key)

/-- The type of a variable bound to a table: its fields and the members attached to the
variable. -/
def tableDeclType (key : DeclKey) (entry : Entry) (table : NodeRef) : Rule Ty := do
  let literal ← tableType ctx key.file table
  match ← attachedMembers ctx key entry with
  | [] => pure literal
  | keys =>
    let (supers, own) := match literal with
      | .record supers members => (supers, members)
      | _ => ([], [])
    let attached ← memberList ctx keys
    pure (.record supers (attached.foldl putMember own))

/-- The type of a declaration from its initialiser. -/
def initializerType (key : DeclKey) (entry : Entry) : Rule Ty := do
  match entry.initializer with
  | none => pure .unknown
  | some init =>
    let whole := init.valueIndex == 0
    let isVariable := entry.kind = .localVar || entry.kind = .global
    match init.shape with
    | .numericFor => pure .number
    | .iterator => iteratorType ctx key.file init.expr init.valueIndex
    | shape =>
      if shape.isFunction && whole then closureType ctx key.file init.expr none
      else if shape = .table && whole && isVariable then
        tableDeclType ctx key entry init.expr
      else do pure ((← ask (.expr key.file init.expr none)).nthValue init.valueIndex)

/-- The type of a declaration that is neither class nor alias. -/
def variableType (key : DeclKey) (entry : Entry) : Rule Ty := do
  let ty ← match entry.declared with
    | some declared => do pure (withGenerics entry (← ask (.resolve declared)))
    | none =>
      if entry.kind = .parameter then parameterType ctx key entry
      else initializerType ctx key entry
  withOverloads entry ty

/-- The type of a declaration, not yet under the bindings of the query. -/
def declType (key : DeclKey) : Rule Ty := do
  match ctx.snapshot.entry? key with
  | none => pure .unknown
  | some entry =>
    match entry.kind with
    | .classDecl => ask (.classValue entry.name)
    | .aliasDecl =>
      match entry.declared with
      | some ty => ask (.resolve ty)
      | none => pure .unknown
    | _ => variableType ctx key entry

end LuaTyping.Infer.Rule
