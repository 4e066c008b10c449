import LuaTyping.Source
import LuaTyping.Tree.Operator

/-!
# Nodes of a syntax tree

Every statement and expression of Lua is one form. A form refers to its parts by their numbers in
the tree that holds it. A part may be absent, where the language leaves it out, and a number may
lead nowhere, since trees also come from outside; both are ordinary values here.

The value of a number literal is not kept: no type depends on it.
-/

set_option autoImplicit false

namespace LuaTyping

/-- A reference to a node by its number, or to none. -/
abbrev NodeRef := Option Nat

/-- The key of an index expression. -/
inductive IndexKey where
  /-- As in `a.name`. -/
  | named (name : String)
  /-- As in `a[expr]`. -/
  | expr (node : NodeRef)
deriving DecidableEq, Inhabited, Repr

/-- The key of a field in a table constructor. -/
inductive FieldKey where
  /-- As in `name = value`. -/
  | named (name : String)
  /-- As in `[expr] = value`. -/
  | expr (node : NodeRef)
  /-- A value without a key. -/
  | positional
deriving DecidableEq, Inhabited, Repr

/-- One condition of an `if` statement with the block it guards. -/
structure Arm where
  cond : NodeRef
  block : NodeRef
deriving DecidableEq, Inhabited, Repr

/-- A statement or expression. -/
inductive Form where
  | chunk (block : NodeRef)
  | block (stmts : List NodeRef)
  /-- As in `local a, b = e1, e2`. -/
  | localVars (names exprs : List NodeRef)
  /-- As in `local function name() end`. -/
  | localFunction (name func : NodeRef)
  /-- As in `function a.b() end`, or with `method` as in `function a:b() end`. -/
  | functionStat (target : NodeRef) (method : Bool) (func : NodeRef)
  | assign (targets exprs : List NodeRef)
  | ret (exprs : List NodeRef)
  | ifElse (arms : List Arm) (elseBlock : NodeRef)
  | whileLoop (cond block : NodeRef)
  | repeatLoop (block cond : NodeRef)
  /-- As in `for var = start, limit, step do block end`. -/
  | numericFor (var start limit step block : NodeRef)
  /-- As in `for a, b in exprs do block end`. -/
  | genericFor (names exprs : List NodeRef) (block : NodeRef)
  | doBlock (block : NodeRef)
  | exprStat (expr : NodeRef)
  | breakStat
  /-- A documentation comment that no statement follows. -/
  | docOnly
  | nil
  | boolean (value : Bool)
  | number
  | string (text : String)
  | vararg
  | name (text : String)
  | index (base : NodeRef) (key : IndexKey)
  /-- As in `callee(args)`, or with a method as in `callee:method(args)`. -/
  | call (callee : NodeRef) (method : Option String) (args : List NodeRef)
  | closure (params : List NodeRef) (variadic : Bool) (body : NodeRef)
  | table (fields : List NodeRef)
  | tableField (key : FieldKey) (value : NodeRef)
  | binary (op : BinaryOp) (lhs rhs : NodeRef)
  | unary (op : UnaryOp) (operand : NodeRef)
  | paren (expr : NodeRef)
deriving DecidableEq, Inhabited, Repr

namespace IndexKey

/-- The part that a key refers to. -/
def parts : IndexKey → List NodeRef
  | .named _ => []
  | .expr node => [node]

end IndexKey

namespace FieldKey

/-- The part that a key refers to. -/
def parts : FieldKey → List NodeRef
  | .expr node => [node]
  | _ => []

end FieldKey

namespace Form

/-- The parts of a form in the order of the text, the absent ones among them. -/
def parts : Form → List NodeRef
  | .chunk body => [body]
  | .block stmts => stmts
  | .localVars names exprs => names ++ exprs
  | .localFunction declared func => [declared, func]
  | .functionStat target _ func => [target, func]
  | .assign targets exprs => targets ++ exprs
  | .ret exprs => exprs
  | .ifElse arms elseBlock => arms.flatMap (fun arm => [arm.cond, arm.block]) ++ [elseBlock]
  | .whileLoop cond body => [cond, body]
  | .repeatLoop body cond => [body, cond]
  | .numericFor var start limit step body => [var, start, limit, step, body]
  | .genericFor names exprs body => names ++ exprs ++ [body]
  | .doBlock body => [body]
  | .exprStat expr => [expr]
  | .index base key => base :: key.parts
  | .call callee _ args => callee :: args
  | .closure params _ body => params ++ [body]
  | .table fields => fields
  | .tableField key value => key.parts ++ [value]
  | .binary _ lhs rhs => [lhs, rhs]
  | .unary _ operand => [operand]
  | .paren expr => [expr]
  | .breakStat | .docOnly | .nil | .boolean _ | .number | .string _ | .vararg | .name _ => []

/-- The parts that are there, in the order of the text. -/
def children (form : Form) : List Nat := form.parts.filterMap id

def isStatement : Form → Bool
  | .chunk _ | .block _ | .localVars _ _ | .localFunction _ _ | .functionStat _ _ _
  | .assign _ _ | .ret _ | .ifElse _ _ | .whileLoop _ _ | .repeatLoop _ _
  | .numericFor _ _ _ _ _ | .genericFor _ _ _ | .doBlock _ | .exprStat _
  | .breakStat | .docOnly => true
  | _ => false

/-- The text of a name. -/
def nameText? : Form → Option String
  | .name text => some text
  | _ => none

def isClosure : Form → Bool
  | .closure _ _ _ => true
  | _ => false

end Form

/-- A form with its place in the source and the node it is a part of. -/
structure Node where
  form : Form
  span : Span
  parent : NodeRef
deriving DecidableEq, Inhabited, Repr

end LuaTyping
