import LuaTyping.Decl.Lower
import LuaTyping.Decl.Scope
import LuaTyping.Decl.Tables
import LuaTyping.Tree.Basic

/-!
# Collecting declarations

One walk over a tree records its declarations, scopes and functions. The walk decides by the text
alone: a documented type is lowered, an initialiser is noted by its node and shape, and whom a
member belongs to follows from the name it is assigned through.

A tree from outside may refer to the same node twice, and then the node is walked twice. References
that run in a circle have no finite walk; the walk is cut at a depth that no other tree reaches.
-/

set_option autoImplicit false

namespace LuaTyping

/-- The declarations found so far and the place the walk has reached. -/
structure Collector where
  table : ScopeTable
  tables : DeclTables
  functions : Std.HashMap Nat FunctionInfo
  /-- The scope the walk is in. -/
  scope : Option Nat
  /-- The functions the walk is in, innermost first. -/
  closures : List Nat
deriving Inhabited

/-- A step of the walk. -/
abbrev CollectM := StateM Collector

/-- What the walk is to visit. -/
inductive Visit where
  /-- One statement. -/
  | stmt (node : NodeRef)
  /-- The statements of a block, in the scope the walk is in. -/
  | stmts (block : NodeRef)
  /-- An expression, with the comment that documents it. -/
  | expr (node : NodeRef) (doc : Option DocComment)
deriving Inhabited

namespace Collect

/-! ### What the text says -/

/-- The name of a declaring node, unless it is empty. -/
def nameOf? (tree : Tree) (node : NodeRef) : Option String :=
  (tree.nameText? node).filter fun name => !name.isEmpty

/-- The shape of an expression, through at most `steps` pairs of parentheses. -/
def shapeWithin (tree : Tree) : (steps : Nat) → NodeRef → InitShape
  | 0, _ => .other
  | steps + 1, node =>
    match tree.form? node with
    | some (.closure params variadic _) => .function params.length variadic
    | some (.table _) => .table
    | some .nil | some (.boolean _) | some .number | some (.string _) => .literal
    | some (.call _ _ _) => .call
    | some (.name text) => .name text
    | some (.paren inner) => shapeWithin tree steps inner
    | _ => .other

def shapeOf (tree : Tree) (node : NodeRef) : InitShape := shapeWithin tree (tree.size + 1) node

/-- The initialiser that is all of one expression. -/
def wholeOf (tree : Tree) (node : NodeRef) : Initializer := ⟨node, 0, shapeOf tree node⟩

/-- The initialiser of the name at position `index` of a list of names. Names past the last
expression take its further values. -/
def initializerAt (tree : Tree) (exprs : List NodeRef) (index : Nat) : Option Initializer :=
  match exprs[index]?, exprs.getLast? with
  | some expr, _ => some ⟨expr, 0, shapeOf tree expr⟩
  | none, some last => some ⟨last, index - (exprs.length - 1), shapeOf tree last⟩
  | none, none => none

/-- Whether a statement returns on every path, looking `steps` statements deep. -/
def stmtReturns (tree : Tree) : (steps : Nat) → NodeRef → Bool
  | 0, _ => false
  | steps + 1, stmt =>
    let blockReturns (block : NodeRef) : Bool :=
      match tree.form? block with
      | some (.block stmts) => stmts.any fun inner => stmtReturns tree steps inner
      | _ => false
    match tree.form? stmt with
    | some (.ret _) => true
    | some (.doBlock block) => blockReturns block
    | some (.ifElse arms elseBlock) =>
      elseBlock.isSome && blockReturns elseBlock && arms.all fun arm => blockReturns arm.block
    | _ => false

/-- Whether a block holds a statement that returns on every path. -/
def blockReturns (tree : Tree) (block : NodeRef) : Bool :=
  match tree.form? block with
  | some (.block stmts) => stmts.any fun stmt => stmtReturns tree (tree.size + 1) stmt
  | _ => false

/-- The offset at which the body of a loop starts. -/
def bodyStart (tree : Tree) (stmt block : NodeRef) : Nat :=
  if block.isSome then (tree.span block).start else (tree.span stmt).stop

/-- The class that a comment declares first, unless its name is empty. -/
def classOf? (doc : Option DocComment) : Option String :=
  ((doc.bind DocComment.classTag?).map Prod.fst).filter fun name => !name.isEmpty

/-- The declaration with what its comment says of it. A variable that holds the table of a class
has that class as its type, whatever type the comment gives. -/
def documented (entry : Entry) (doc : Option DocComment) (className : Option String) : Entry :=
  match doc with
  | none => entry
  | some doc =>
    let generics := doc.genericNames
    let declared := match className, doc.typeTag? with
      | some name, _ => some (Ty.aliasRef name [])
      | none, some ty => some (ty.lower generics)
      | none, none => entry.declared
    { entry with
      declared
      className := className.or entry.className
      deprecated := doc.isDeprecated
      overloads := TypeExpr.lowerList generics doc.overloads
      generics }

/-! ### Steps of the walk -/

/-- Opens a scope and goes into it. -/
def openScope (kind : ScopeKind) (span : Span) (function : NodeRef) : CollectM Unit :=
  modify fun c =>
    let (index, table) := c.table.openScope c.scope kind span function
    { c with table, scope := some index }

/-- Goes out of the scope the walk is in. -/
def closeScope : CollectM Unit :=
  modify fun c =>
    match c.table.scope? c.scope with
    | some scope => { c with scope := scope.parent }
    | none => c

/-- Runs a part of the walk inside a new scope. -/
def inScope (kind : ScopeKind) (span : Span) (function : NodeRef) (body : CollectM Unit) :
    CollectM Unit := do
  openScope kind span function
  body
  closeScope

/-- A bare declaration in the scope the walk is in, with the next number. It is to be recorded
before another one is made. -/
def freshEntry (kind : DeclKind) (name : String) (node : NodeRef) (span : Span) :
    CollectM Entry := do
  let c ← get
  pure (Entry.plain c.table.entries.size kind name c.scope node span)

/-- A bare declaration at a node. -/
def newEntry (tree : Tree) (kind : DeclKind) (name : String) (node : NodeRef) : CollectM Entry :=
  freshEntry kind name node (tree.span node)

/-- Records a declaration under the number it carries: in the tables and in its scope. -/
def declare (entry : Entry) : CollectM Nat := fun c =>
  (entry.id, { c with table := c.table.declare entry, tables := c.tables.insert entry })

/-- The local binding that a name node refers to. -/
def localBinding? (tree : Tree) (name : String) (node : NodeRef) : CollectM (Option Nat) := do
  let c ← get
  pure (c.table.lookup name (tree.span node).start c.scope)

/-- The class whose table a global declared so far holds. -/
def globalClass? (entries : Array Entry) (name : String) : Option String :=
  entries.toList.findSome? fun entry =>
    if entry.kind == .global && entry.name == name then entry.className else none

/-- Whom the members reached through a name belong to. -/
def ownerOf? (tree : Tree) (base : NodeRef) : CollectM (Option Owner) := do
  match tree.nameText? base with
  | none => pure none
  | some name =>
    let table := (← get).table
    match ← localBinding? tree name base with
    | some decl =>
      pure <| (table.entry? decl).map fun entry =>
        match entry.kind, entry.owner, entry.className with
        | .parameter, some owner, _ => owner
        | _, _, some className => .ofClass className
        | _, _, none => .ofTable decl
    | none =>
      pure <| some <| match globalClass? table.entries name with
        | some className => .ofClass className
        | none => .ofGlobal name

/-- Declares the classes, documented fields and aliases of a comment. A field belongs to the class
declared before it in the same comment. -/
def declareTags (tree : Tree) (stmt : NodeRef) (doc : DocComment) : CollectM Unit :=
  go none doc.tags
where
  /-- The tags that follow a class tag for `className`. -/
  go (className : Option String) : List Tag → CollectM Unit
    | [] => pure ()
    | .classTag name supers :: rest => do
      if name.isEmpty then go className rest
      else
        let entry ← newEntry tree .classDecl name stmt
        let _ ← declare
          { entry with
            supers := supers.filter fun parent => !parent.isEmpty
            deprecated := doc.isDeprecated
            hoisted := true }
        go (some name) rest
    | .fieldTag visibility name ty :: rest => do
      match className with
      | some owner =>
        if !name.isEmpty then
          let entry ← newEntry tree .field name stmt
          let _ ← declare
            { entry with
              owner := some (.ofClass owner)
              worth := .documented
              visibility
              declared := some (ty.lower []) }
      | none => pure ()
      go className rest
    | .aliasTag name generics ty :: rest => do
      if !name.isEmpty then
        let params := generics.map TypeParam.name
        let entry ← newEntry tree .aliasDecl name stmt
        let _ ← declare
          { entry with declared := some (ty.lower params), generics := params, hoisted := true }
      go className rest
    | _ :: rest => go className rest

/-- Declares the named fields of a table constructor as members of `owner`. -/
def declareFields (tree : Tree) (owner : Owner) (expr : NodeRef) : CollectM Unit := do
  match tree.form? expr with
  | some (.table fields) =>
    for field in fields do
      match tree.form? field with
      | some (.tableField (.named name) value) =>
        let initializer := wholeOf tree value
        let kind := if initializer.shape.isFunction then .function else .field
        let entry ← newEntry tree kind name field
        let _ ← declare
          (documented
            { entry with
              owner := some owner
              worth := .tableField
              initializer := some initializer }
            (tree.doc? field) none)
      | _ => pure ()
  | _ => pure ()

/-- Declares a variable of a loop, which the header of the loop does not see. -/
def declareLoopVar (tree : Tree) (node expr : NodeRef) (valueIndex : Nat) (shape : InitShape)
    (visibleFrom : Nat) : CollectM Unit := do
  match nameOf? tree node with
  | none => pure ()
  | some name =>
    let entry ← newEntry tree .localVar name node
    let _ ← declare
      { entry with
        visibleFrom
        initializer := if expr.isSome then some ⟨expr, valueIndex, shape⟩ else none }

/-- Declares the parameters of a function, and says which declarations they are. -/
def declareParams (tree : Tree) (params : List NodeRef) (doc : Option DocComment)
    (generics : List String) (visibleFrom : Nat) : CollectM (List Nat) := do
  let decls ← params.mapM fun param => do
    match nameOf? tree param with
    | none => pure none
    | some name =>
      let entry ← newEntry tree .parameter name param
      let decl ← declare
        { entry with
          hoisted := true
          visibleFrom
          declared := (doc.bind fun doc => doc.param? name).map fun ty => ty.lower generics
          generics }
      pure (some decl)
  pure (decls.filterMap id)

/-- Declares the implicit `self` of a method. Without a documented type it is a value of the class
it belongs to. -/
def declareSelf (doc : Option DocComment) (generics : List String) (owner : Option Owner)
    (span : Span) : CollectM Nat := do
  let declared := match doc.bind (fun doc => doc.param? "self"), owner with
    | some ty, _ => some (ty.lower generics)
    | none, some (.ofClass name) => some (.aliasRef name [])
    | none, _ => none
  let entry ← freshEntry .parameter "self" none span
  declare { entry with hoisted := true, visibleFrom := span.start, declared, owner }

/-- Notes a return statement of the innermost function. -/
def noteReturn (stmt : NodeRef) : CollectM Unit :=
  modify fun c =>
    match c.closures, stmt with
    | closure :: _, some index =>
      { c with
        functions := c.functions.modify closure fun info =>
          { info with returnStmts := info.returnStmts.push index } }
    | _, _ => c

section Walk

variable (tree : Tree) (visit : Visit → CollectM Unit)

/-- Walks expressions that nothing documents. -/
def visitExprs (exprs : List NodeRef) : CollectM Unit :=
  exprs.forM fun expr => visit (.expr expr none)

/-- Walks expressions, the first of them with a comment. -/
def visitDocumented (exprs : List NodeRef) (doc : Option DocComment) : CollectM Unit :=
  match exprs with
  | [] => pure ()
  | first :: rest => do
    visit (.expr first doc)
    visitExprs visit rest

/-- Walks a block in a scope of its own. An absent block has none. -/
def visitBlock (kind : ScopeKind) (block : NodeRef) : CollectM Unit :=
  if block.isNone then pure ()
  else inScope kind (tree.span block) none (visit (.stmts block))

/-- Walks a function expression: its parameters, then its body, in a scope of its own. -/
def visitClosure (closure : NodeRef) (doc : Option DocComment) (owner : Option Owner)
    (method : Bool) : CollectM Unit := do
  match closure, tree.form? closure with
  | some index, some (.closure params variadic body) =>
    let generics := (doc.map DocComment.genericNames).getD []
    let documentedReturns := (doc.map DocComment.returns).getD []
    let span := tree.span closure
    inScope .function span closure do
      let self ← if method then do pure [← declareSelf doc generics owner span] else pure []
      let named ← declareParams tree params doc generics span.start
      let info : FunctionInfo :=
        { returns :=
            if documentedReturns.isEmpty then none
            else some (TypeExpr.lowerReturns generics documentedReturns)
          generics, params := self ++ named, variadic, methodOf := owner, returnStmts := #[],
          fallsThrough := !blockReturns tree body }
      modify fun c =>
        { c with
          functions := c.functions.insert index info
          closures := index :: c.closures }
      visit (.stmts body)
      modify fun c => { c with closures := c.closures.tail }
  | _, _ => pure ()

/-- Walks `local a, b = e1, e2`. The names are declared before the expressions are walked, and are
visible from the end of the statement. -/
def visitLocals (stmt : NodeRef) (names exprs : List NodeRef) (doc : Option DocComment) :
    CollectM Unit := do
  let className := classOf? doc
  let bound ← names.zipIdx.mapM fun (node, index) => do
    match nameOf? tree node with
    | none => pure none
    | some name =>
      let entry ← newEntry tree .localVar name node
      let entry :=
        { entry with
          visibleFrom := (tree.span stmt).stop
          initializer := initializerAt tree exprs index }
      let decl ← declare (if index == 0 then documented entry doc className else entry)
      pure (some (index, decl))
  for (index, decl) in bound.filterMap id do
    match exprs[index]? with
    | some expr =>
      let owner := match className, index with
        | some name, 0 => .ofClass name
        | _, _ => .ofTable decl
      declareFields tree owner expr
    | none => pure ()
  visitDocumented visit exprs doc

/-- Walks `local function name() end`, which is visible throughout its scope. -/
def visitLocalFunction (node func : NodeRef) (doc : Option DocComment) : CollectM Unit := do
  match nameOf? tree node with
  | some name =>
    let entry ← newEntry tree .function name node
    let _ ← declare
      (documented { entry with hoisted := true, initializer := some (wholeOf tree func) } doc none)
  | none => pure ()
  visitClosure tree visit func doc none false

/-- Declares a global unless the name is bound locally, and says whether it did. -/
def declareGlobal (stmt target : NodeRef) (name : String) (initializer : Option Initializer)
    (doc : Option DocComment) (className : Option String) : CollectM Bool := do
  match ← localBinding? tree name target with
  | some _ => pure false
  | none =>
    let entry ← newEntry tree .global name target
    let _ ← declare
      (documented { entry with visibleFrom := (tree.span stmt).stop, initializer } doc className)
    pure true

/-- Walks a function statement. -/
def visitFunctionStat (stmt target : NodeRef) (method : Bool) (func : NodeRef)
    (doc : Option DocComment) : CollectM Unit := do
  let initializer := some (wholeOf tree func)
  match tree.form? target with
  | some (.name name) =>
    let _ ← declareGlobal tree stmt target name initializer doc none
    visitClosure tree visit func doc none method
  | some (.index base (.named member)) =>
    let owner ← ownerOf? tree base
    if owner.isSome then
      let entry ← newEntry tree .function member target
      let _ ← declare (documented { entry with owner, worth := .method, initializer } doc none)
    visitClosure tree visit func doc (if method then owner else none) method
  | _ =>
    visit (.expr target none)
    visitClosure tree visit func doc none method

/-- Walks one target of an assignment. Only the first takes what the comment says. -/
def visitTarget (stmt : NodeRef) (exprs : List NodeRef) (doc : Option DocComment)
    (target : NodeRef) (index : Nat) : CollectM Unit := do
  let doc := if index == 0 then doc else none
  let className := classOf? doc
  match tree.form? target with
  | some (.name name) =>
    if ← declareGlobal tree stmt target name (initializerAt tree exprs index) doc className then
      match exprs[index]? with
      | some expr =>
        let owner := match className with
          | some className => .ofClass className
          | none => .ofGlobal name
        declareFields tree owner expr
      | none => pure ()
  | some (.index base (.named member)) =>
    match ← ownerOf? tree base with
    | none => visit (.expr base none)
    | some owner =>
      let initializer := initializerAt tree exprs index
      let isFunction := (initializer.map fun init => init.shape.isFunction).getD false
      let entry ← newEntry tree (if isFunction then .function else .field) member target
      let _ ← declare
        (documented { entry with owner := some owner, worth := .assignment, initializer } doc none)
  | _ => visit (.expr target none)

/-- Walks an assignment. The comment documents the expression only where there is one target. -/
def visitAssign (stmt : NodeRef) (targets exprs : List NodeRef) (doc : Option DocComment) :
    CollectM Unit := do
  targets.zipIdx.forM fun (target, index) => visitTarget tree visit stmt exprs doc target index
  visitDocumented visit exprs (if targets.length == 1 then doc else none)

/-- Walks a statement of the given form. -/
def visitForm (stmt : NodeRef) (doc : Option DocComment) : Form → CollectM Unit
  | .localVars names exprs => visitLocals tree visit stmt names exprs doc
  | .localFunction name func => visitLocalFunction tree visit name func doc
  | .functionStat target method func => visitFunctionStat tree visit stmt target method func doc
  | .assign targets exprs => visitAssign tree visit stmt targets exprs doc
  | .ret exprs => do
    noteReturn stmt
    visitExprs visit exprs
  | .ifElse arms elseBlock => do
    arms.forM fun arm => do
      visit (.expr arm.cond none)
      visitBlock tree visit .block arm.block
    visitBlock tree visit .block elseBlock
  | .whileLoop cond block => do
    visit (.expr cond none)
    visitBlock tree visit .loop block
  | .repeatLoop block cond =>
    inScope .loop (tree.span stmt) none do
      visit (.stmts block)
      visit (.expr cond none)
  | .numericFor var start limit step block => do
    visitExprs visit [start, limit, step]
    inScope .loop (tree.span stmt) none do
      declareLoopVar tree var start 0 .numericFor (bodyStart tree stmt block)
      visit (.stmts block)
  | .genericFor names exprs block => do
    visitExprs visit exprs
    inScope .loop (tree.span stmt) none do
      let iterator := exprs.head?.getD none
      names.zipIdx.forM fun (name, index) =>
        declareLoopVar tree name iterator index .iterator (bodyStart tree stmt block)
      visit (.stmts block)
  | .doBlock block => visitBlock tree visit .block block
  | .block _ => visitBlock tree visit .block stmt
  | .exprStat expr => visit (.expr expr none)
  | .chunk block => visit (.stmts block)
  | .breakStat | .docOnly => pure ()
  | _ => visit (.expr stmt none)

/-- Walks an expression. Only a function expression takes the comment. -/
def visitExpr (node : NodeRef) (doc : Option DocComment) : CollectM Unit := do
  match tree.form? node with
  | none => pure ()
  | some (.closure _ _ _) => visitClosure tree visit node doc none false
  | some (.table fields) =>
    fields.forM fun field => do
      match tree.form? field with
      | some (.tableField key value) =>
        visitExprs visit key.parts
        visit (.expr value (tree.doc? field))
      | _ => pure ()
  | some form => form.children.forM fun child => visit (.expr (some child) none)

/-- One visit, where `visit` does the visits inside it. -/
def visitStep : Visit → CollectM Unit
  | .stmt node => do
    match tree.form? node with
    | none => pure ()
    | some form =>
      let doc := tree.doc? node
      match doc with
      | some doc => declareTags tree node doc
      | none => pure ()
      visitForm tree visit node doc form
  | .stmts block => do
    match tree.form? block with
    | some (.block stmts) => stmts.forM fun stmt => visit (.stmt stmt)
    | some _ => visit (.stmt block)
    | none => pure ()
  | .expr node doc => visitExpr tree visit node doc

end Walk

/-- A visit with `depth` levels of visits inside it. -/
def visitWithin (tree : Tree) : (depth : Nat) → Visit → CollectM Unit
  | 0 => fun _ => pure ()
  | depth + 1 => visitStep tree (visitWithin tree depth)

/-- A depth that the walk of a tree never reaches unless its references run in a circle: a node is
the subject of at most three nested visits. -/
def depthBound (tree : Tree) : Nat := 3 * (tree.size + 2)

/-- The state before the walk. -/
def start : Collector := ⟨ScopeTable.empty, DeclTables.empty, ∅, none, []⟩

/-- What the walk of a tree finds. A tree whose root is no chunk declares nothing. -/
def run (tree : Tree) : Collector :=
  match tree.form? tree.root with
  | some (.chunk block) =>
    ((inScope .file (tree.span tree.root) none
      (visitWithin tree (depthBound tree) (.stmts block))).run start).2
  | _ => start

end Collect

end LuaTyping
