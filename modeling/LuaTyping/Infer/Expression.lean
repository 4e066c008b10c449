import LuaTyping.Infer.Call

/-!
# Expressions

The type of each form of expression from the types of its parts. A form that is no expression has
no known type.
-/

set_option autoImplicit false

namespace LuaTyping.Infer.Rule

variable (ctx : Context)

/-- Arithmetic gives a number for numbers, and nothing known otherwise. -/
def arithmetic (left right : Ty) : Ty :=
  if left.isNumberLike && right.isNumberLike then .number else .unknown

/-- Whether a name refers to a binding of a scope, which only a change of the file itself can
change. -/
def isLexical (snapshot : Snapshot) (file : FileId) : List DeclKey → Bool
  | [key] =>
    key.file == file &&
      match snapshot.entry? key with
      | some entry => entry.kind.isLexical
      | none => false
  | _ => false

/-- The type of a name: the union over what it may refer to. -/
def nameType (file : FileId) (node : NodeRef) (name : String) : Rule Ty := do
  let candidates := ctx.snapshot.resolveName file name (ctx.snapshot.startOf file node)
  if !isLexical ctx.snapshot file candidates then note name
  if candidates.isEmpty then pure .unknown
  else projectUnion ctx (← declTypes candidates)

/-- The type of an index expression. -/
def indexType (file : FileId) (base : NodeRef) (key : IndexKey) : Rule Ty := do
  let baseTy ← value file base
  match key with
  | .named member => memberType ctx member baseTy
  | .expr key => do
    let keyTy ← value file key
    indexedType ctx keyTy baseTy

/-- The type of a binary operation. -/
def binaryType (file : FileId) (op : BinaryOp) (lhs rhs : NodeRef) : Rule Ty := do
  match op with
  | .and => value file rhs
  | .or => do
    let left ← value file lhs
    let right ← value file rhs
    pure (Ty.unionOf [left.withoutNil, right])
  | .concat => pure .string
  | op =>
    if op.isComparison then pure .boolean
    else
      let left ← value file lhs
      let right ← value file rhs
      pure (arithmetic left right)

/-- The type of a unary operation. -/
def unaryType (file : FileId) (op : UnaryOp) (operand : NodeRef) : Rule Ty := do
  match op with
  | .not => pure .boolean
  | .len => pure .number
  | .neg | .bitNot => do pure (arithmetic (← value file operand) .number)

/-- What a table constructor holds: members by name, and items without one. -/
structure TableParts where
  members : List (Member Ty)
  items : List Ty
deriving Inhabited

/-- Adds one field of a table constructor. A field that is declared has the type of its
declaration, which knows its documentation. -/
def addField (file : FileId) (tree : Tree) (decls : FileDecls) (parts : TableParts)
    (field : NodeRef) : Rule TableParts := do
  match tree.form? field with
  | some (.tableField (.named name) expr) =>
    let ty ← match decls.declForNode? field with
      | some decl => ask (.decl ⟨file, decl⟩)
      | none => value file expr
    let member : Member Ty := { Member.ofTy name ty with site := some ⟨file, tree.span field⟩ }
    pure { parts with members := putMember parts.members member }
  | some (.tableField .positional expr) =>
    let ty ← value file expr
    pure { parts with items := parts.items ++ [ty.widen] }
  | _ => pure parts

/-- The type of a table constructor: an array if it holds only items, and a record otherwise. -/
def tableType (file : FileId) (node : NodeRef) : Rule Ty := do
  match ctx.snapshot.file? file with
  | none => pure .unknown
  | some indexed =>
    match indexed.tree.form? node with
    | some (.table fields) =>
      let parts ← fields.foldlM (addField file indexed.tree indexed.decls) ⟨[], []⟩
      pure (if parts.members.isEmpty && !parts.items.isEmpty then .array (Ty.unionOf parts.items)
        else .record [] parts.members)
    | _ => pure .unknown

/-- The type of the values of one return statement. -/
def returnedType (file : FileId) : List NodeRef → Rule Ty
  | [] => pure .nil
  | [expr] => ask (.expr file expr none)
  | exprs => do pure (.tuple (← exprs.mapM fun expr => value file expr))

/-- The union over the return statements of a function, with `nil` if control can reach the end of
its body. -/
def returnsType (file : FileId) (tree : Tree) (info : FunctionInfo) : Rule Ty := do
  let types ← info.returnStmts.toList.mapM fun stmt => do
    match tree.form? (some stmt) with
    | some (.ret exprs) => some <$> returnedType file exprs
    | _ => pure none
  let types := types.filterMap id
  pure (Ty.unionOf (if info.fallsThrough || types.isEmpty then types ++ [.nil] else types))

/-- The types of parameters. An unknown one takes the type that is expected in its place. -/
def paramTypes (file : FileId) (expected : List Ty) (params : List Nat) : Rule (List Ty) :=
  params.zipIdx.mapM fun (param, index) => do
    let ty ← ask (.decl ⟨file, param⟩)
    pure (if ty.isUnknown then expected[index]?.getD ty else ty)

/-- The type of a function expression. -/
def closureType (file : FileId) (node : NodeRef) (expected : Option Ty) : Rule Ty := do
  match ctx.snapshot.file? file with
  | none => pure Ty.anyFunction
  | some indexed =>
    match indexed.decls.function? node with
    | none => pure Ty.anyFunction
    | some info =>
      let params ← paramTypes file ((expected.bind Ty.params?).getD []) info.params
      let ret ← match info.returns with
        | some returns => ask (.resolve returns)
        | none => returnsType file indexed.tree info
      pure (.function params ret info.variadic info.generics)

/-- The type of an expression by its form. -/
def formType (file : FileId) (node : NodeRef) (expected : Option Ty) : Form → Rule Ty
  | .nil => pure .nil
  | .boolean _ => pure .boolean
  | .number => pure .number
  | .string text => pure (.literal text)
  | .name name => nameType ctx file node name
  | .index base key => indexType ctx file base key
  | .call callee method args => callType ctx file callee method args
  | .closure _ _ _ => closureType ctx file node expected
  | .table _ => tableType ctx file node
  | .tableField _ expr => value file expr
  | .binary op lhs rhs => binaryType file op lhs rhs
  | .unary op operand => unaryType file op operand
  | .paren expr => value file expr
  | _ => pure .unknown

/-- The type of an expression. -/
def exprType (file : FileId) (node : NodeRef) (expected : Option Ty) : Rule Ty :=
  match ctx.snapshot.form? file node with
  | some form => formType ctx file node expected form
  | none => pure .unknown

end LuaTyping.Infer.Rule
