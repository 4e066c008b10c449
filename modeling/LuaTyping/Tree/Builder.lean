import LuaTyping.Tree.Basic

/-!
# Building trees

A tree is built from the leaves up, in the order of the text. Each new node starts where its
earliest part starts and ends after everything made before it, so the order of nodes and the
nesting of spans both follow from the order of the calls.
-/

set_option autoImplicit false

namespace LuaTyping

/-- A tree under construction, with the offset at which the next node begins. -/
structure Builder where
  tree : Tree
  cursor : Nat
deriving Inhabited

/-- A step of construction. -/
abbrev BuildM := StateM Builder

namespace Builder

def empty : Builder := ⟨Tree.empty, 0⟩

/-- Where a node with the given children starts: at the earliest of them, or else here. -/
def startOf (builder : Builder) (children : List Nat) : Nat :=
  ((children.map fun child => (builder.tree.span (some child)).start).min?).getD builder.cursor

/-- Adds a node and makes it the parent of its children. -/
def pushNode (builder : Builder) (form : Form) : Nat × Builder :=
  let children := form.children
  let span : Span := ⟨builder.startOf children, builder.cursor + 1⟩
  let (index, tree) := builder.tree.add { form, span, parent := none }
  (index, ⟨children.foldl (fun tree child => tree.setParent index child) tree, builder.cursor + 2⟩)

end Builder

namespace BuildM

/-- Adds a node and makes it the parent of its children. -/
def push (form : Form) : BuildM NodeRef := fun builder =>
  let (index, builder) := builder.pushNode form
  (some index, builder)

/-- Attaches tags to a node and hands the node back. -/
def doc (node : NodeRef) (tags : List Tag) : BuildM NodeRef := do
  modify fun builder => { builder with tree := builder.tree.attachDoc node ⟨tags⟩ }
  pure node

/-- A comment that no statement follows. -/
def docOnly (tags : List Tag) : BuildM NodeRef := do
  doc (← push .docOnly) tags

def block (stmts : List NodeRef) : BuildM NodeRef := push (.block stmts)

def name (text : String) : BuildM NodeRef := push (.name text)

/-- The expression `base.field`. -/
def field (base : NodeRef) (field : String) : BuildM NodeRef := push (.index base (.named field))

/-- The function expression with the given parameters; its body is made first. -/
def closure (params : List String) (variadic : Bool) (body : List NodeRef) : BuildM NodeRef := do
  let body ← block body
  let params ← params.mapM name
  push (.closure params variadic body)

/-- The statement `local a, b = e1, e2`. -/
def locals (names : List String) (exprs : List NodeRef) : BuildM NodeRef := do
  let names ← names.mapM name
  push (.localVars names exprs)

def localFunction (text : String) (func : NodeRef) : BuildM NodeRef := do
  let name ← name text
  push (.localFunction name func)

/-- The statement `function base:method() end`. -/
def methodStat (base method : String) (func : NodeRef) : BuildM NodeRef := do
  let base ← name base
  let target ← field base method
  push (.functionStat target true func)

/-- The `if` statement with the given conditions and bodies. -/
def ifStat (arms : List (NodeRef × List NodeRef)) (elseBody : Option (List NodeRef)) :
    BuildM NodeRef := do
  let arms ← arms.mapM fun (cond, body) => do pure (Arm.mk cond (← block body))
  let elseBlock ← match elseBody with
    | some body => block body
    | none => pure none
  push (.ifElse arms elseBlock)

def whileStat (cond : NodeRef) (body : List NodeRef) : BuildM NodeRef := do
  push (.whileLoop cond (← block body))

def repeatStat (body : List NodeRef) (cond : NodeRef) : BuildM NodeRef := do
  push (.repeatLoop (← block body) cond)

/-- The statement `for var = start, limit, step do body end`. -/
def numericFor (var : String) (start limit step : NodeRef) (body : List NodeRef) :
    BuildM NodeRef := do
  let block ← block body
  let var ← name var
  push (.numericFor var start limit step block)

/-- The statement `for a, b in exprs do body end`. -/
def genericFor (names : List String) (exprs body : List NodeRef) : BuildM NodeRef := do
  let block ← block body
  let names ← names.mapM name
  push (.genericFor names exprs block)

def doStat (body : List NodeRef) : BuildM NodeRef := do push (.doBlock (← block body))

/-- Wraps the statements of a file and makes the result the root. -/
def finish (stmts : List NodeRef) : BuildM Unit := do
  let block ← block stmts
  let chunk ← push (.chunk block)
  modify fun builder => { builder with tree := builder.tree.setRoot chunk }

end BuildM

end LuaTyping
