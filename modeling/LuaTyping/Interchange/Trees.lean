import LuaTyping.Interchange.Annotations
import LuaTyping.Tree.Builder

/-!
# Trees as interchange values

A form is a word, or a record with one field that names it and holds its parts. A tree is given
either by its nodes, with their spans and parents, or by the steps that build it.
-/

set_option autoImplicit false

namespace LuaTyping

namespace NodeRef

/-- The number that stands for an absent node in a written form. -/
def absentNumber : Nat := Limits.counterMax

/-- Reads a reference; the number for an absent node and null both mean none. -/
def read (value : Value) : ReadM NodeRef := do
  pure ((← value.optional Value.nat).filter fun index => index != absentNumber)

def readList : Value → ReadM (List NodeRef) := Value.listOf read

/-- Writes a reference, null for none. -/
def write : NodeRef → Value := .ofOption .ofNat

/-- Writes a reference inside a form, where none has a number. -/
def writePart (ref : NodeRef) : Value := .ofNat (ref.getD absentNumber)

def writeParts : List NodeRef → Value := .ofList writePart

end NodeRef

/-- The words for binary operators. -/
def BinaryOp.words : List (String × BinaryOp) :=
  [("Add", .add), ("Sub", .sub), ("Mul", .mul), ("Div", .div), ("IDiv", .floorDiv), ("Mod", .mod),
    ("Pow", .pow), ("Concat", .concat), ("Eq", .eq), ("Ne", .ne), ("Lt", .lt), ("Le", .le),
    ("Gt", .gt), ("Ge", .ge), ("And", .and), ("Or", .or), ("BitAnd", .bitAnd), ("BitOr", .bitOr),
    ("BitXor", .bitXor), ("Shl", .shiftLeft), ("Shr", .shiftRight)]

/-- The words for unary operators. -/
def UnaryOp.words : List (String × UnaryOp) :=
  [("Neg", .neg), ("Not", .not), ("Len", .len), ("BitNot", .bitNot)]

/-- The words for the forms without parts. -/
def Form.words : List (String × Form) :=
  [("Break", .breakStat), ("DocOnly", .docOnly), ("Nil", .nil), ("True", .boolean true),
    ("False", .boolean false), ("Vararg", .vararg), ("Number", .number)]

namespace FieldKey

/-- Reads the key of a field. -/
def read (value : Value) : ReadM FieldKey := do
  match ← value.tagged with
  | ("Positional", _) => pure .positional
  | ("Named", v) => do pure (.named (← v.str))
  | ("Expr", v) => do pure (.expr (← NodeRef.read v))
  | _ => throw "unknown key"

def write : FieldKey → Value
  | .positional => .text "Positional"
  | .named name => .record [("Named", .text name)]
  | .expr node => .record [("Expr", NodeRef.writePart node)]

end FieldKey

namespace IndexKey

/-- Reads the key of an index expression. -/
def read (value : Value) : ReadM IndexKey := do
  match ← FieldKey.read value with
  | .named name => pure (.named name)
  | .expr node => pure (.expr node)
  | .positional => throw "unknown key"

def write : IndexKey → Value
  | .named name => FieldKey.write (.named name)
  | .expr node => FieldKey.write (.expr node)

end IndexKey

namespace Form

/-- Reads a form. -/
def read (value : Value) : ReadM Form := do
  let (kind, v) ← value.tagged
  let part (key : String) : ReadM NodeRef := NodeRef.read (v.get key)
  let parts (key : String) : ReadM (List NodeRef) := NodeRef.readList (v.get key)
  match kind with
  | "Chunk" => do pure (.chunk (← part "block"))
  | "Block" => do pure (.block (← parts "stmts"))
  | "Local" => do pure (.localVars (← parts "names") (← parts "exprs"))
  | "LocalFunction" => do pure (.localFunction (← part "name") (← part "func"))
  | "FunctionStat" => do
    pure (.functionStat (← part "target") (← (v.get "method").flagOrFalse) (← part "func"))
  | "Assign" => do pure (.assign (← parts "targets") (← parts "exprs"))
  | "Return" => do pure (.ret (← parts "exprs"))
  | "If" => do
    let arms ← (v.get "arms").listOf fun arm => do
      pure (Arm.mk (← NodeRef.read (arm.get "cond")) (← NodeRef.read (arm.get "block")))
    pure (.ifElse arms (← part "else_block"))
  | "While" => do pure (.whileLoop (← part "cond") (← part "block"))
  | "Repeat" => do pure (.repeatLoop (← part "block") (← part "cond"))
  | "NumericFor" => do
    pure (.numericFor (← part "var") (← part "start") (← part "limit") (← part "step")
      (← part "block"))
  | "GenericFor" => do pure (.genericFor (← parts "names") (← parts "exprs") (← part "block"))
  | "Do" => do pure (.doBlock (← part "block"))
  | "ExprStat" => do pure (.exprStat (← part "expr"))
  | "String" => do pure (.string (← v.str))
  | "Name" => do pure (.name (← v.str))
  | "Index" => do pure (.index (← part "base") (← IndexKey.read (v.get "key")))
  | "Call" => do
    pure (.call (← part "callee") (← (v.get "method").optional Value.str) (← parts "args"))
  | "Closure" => do
    pure (.closure (← parts "params") (← (v.get "variadic").flagOrFalse) (← part "body"))
  | "Table" => do pure (.table (← parts "fields"))
  | "TableField" => do pure (.tableField (← FieldKey.read (v.get "key")) (← part "value"))
  | "Binary" => do
    pure (.binary (← (v.get "op").oneOf BinaryOp.words) (← part "lhs") (← part "rhs"))
  | "Unary" => do pure (.unary (← (v.get "op").oneOf UnaryOp.words) (← part "operand"))
  | "Paren" => do pure (.paren (← part "expr"))
  | word => Value.oneOf words (.text word)

/-- Writes a form. -/
def write (form : Form) : Value :=
  let part := NodeRef.writePart
  let parts := NodeRef.writeParts
  let named (kind : String) (fields : List (String × Value)) : Value :=
    .record [(kind, .record fields)]
  match form with
  | .chunk body => named "Chunk" [("block", part body)]
  | .block stmts => named "Block" [("stmts", parts stmts)]
  | .localVars names exprs => named "Local" [("names", parts names), ("exprs", parts exprs)]
  | .localFunction declared func =>
    named "LocalFunction" [("name", part declared), ("func", part func)]
  | .functionStat target method func =>
    named "FunctionStat" [("target", part target), ("method", .bool method), ("func", part func)]
  | .assign targets exprs => named "Assign" [("targets", parts targets), ("exprs", parts exprs)]
  | .ret exprs => named "Return" [("exprs", parts exprs)]
  | .ifElse arms elseBlock =>
    let writeArm (arm : Arm) : Value := .record [("cond", part arm.cond), ("block", part arm.block)]
    named "If" [("arms", .ofList writeArm arms), ("else_block", part elseBlock)]
  | .whileLoop cond body => named "While" [("cond", part cond), ("block", part body)]
  | .repeatLoop body cond => named "Repeat" [("block", part body), ("cond", part cond)]
  | .numericFor var start limit step body =>
    named "NumericFor" [("var", part var), ("start", part start), ("limit", part limit),
      ("step", part step), ("block", part body)]
  | .genericFor names exprs body =>
    named "GenericFor" [("names", parts names), ("exprs", parts exprs), ("block", part body)]
  | .doBlock body => named "Do" [("block", part body)]
  | .exprStat expr => named "ExprStat" [("expr", part expr)]
  | .string text => .record [("String", .text text)]
  | .name text => .record [("Name", .text text)]
  | .index base key => named "Index" [("base", part base), ("key", key.write)]
  | .call callee method args =>
    named "Call" [("callee", part callee), ("method", .ofOption .text method), ("args", parts args)]
  | .closure params variadic body =>
    named "Closure" [("params", parts params), ("variadic", .bool variadic), ("body", part body)]
  | .table fields => named "Table" [("fields", parts fields)]
  | .tableField key value => named "TableField" [("key", key.write), ("value", part value)]
  | .binary op lhs rhs =>
    named "Binary" [("op", .wordFor BinaryOp.words op), ("lhs", part lhs), ("rhs", part rhs)]
  | .unary op operand =>
    named "Unary" [("op", .wordFor UnaryOp.words op), ("operand", part operand)]
  | .paren expr => named "Paren" [("expr", part expr)]
  | word => .wordFor words word

end Form

namespace BuildM

/-- Reads a step of construction: the name of the step and what it is given. -/
def read (value : Value) : ReadM (BuildM NodeRef) := do
  let ref := NodeRef.read
  let refs := NodeRef.readList
  match ← value.items with
  | [.text "push", form] => do pure (push (← Form.read form))
  | [.text "doc", node, tags] => do pure (doc (← ref node) (← tags.listOf Tag.read))
  | [.text "doc_only", tags] => do pure (docOnly (← tags.listOf Tag.read))
  | [.text "nil"] => pure (push .nil)
  | [.text "bool", b] => do pure (push (.boolean (← b.flag)))
  | [.text "number", _] => pure (push .number)
  | [.text "string", text] => do pure (push (.string (← text.str)))
  | [.text "vararg"] => pure (push .vararg)
  | [.text "name", text] => do pure (name (← text.str))
  | [.text "field", base, member] => do pure (field (← ref base) (← member.str))
  | [.text "index", base, key] => do pure (push (.index (← ref base) (.expr (← ref key))))
  | [.text "call", callee, args] => do pure (push (.call (← ref callee) none (← refs args)))
  | [.text "method_call", base, method, args] => do
    pure (push (.call (← ref base) (some (← method.str)) (← refs args)))
  | [.text "closure", params, body] => do pure (closure (← params.strs) false (← refs body))
  | [.text "closure_variadic", params, body] => do pure (closure (← params.strs) true (← refs body))
  | [.text "table", fields] => do pure (push (.table (← refs fields)))
  | [.text "table_field", key, v] => do pure (push (.tableField (.named (← key.str)) (← ref v)))
  | [.text "table_keyed", key, v] => do pure (push (.tableField (.expr (← ref key)) (← ref v)))
  | [.text "table_item", v] => do pure (push (.tableField .positional (← ref v)))
  | [.text "binary", op, lhs, rhs] => do
    pure (push (.binary (← op.oneOf BinaryOp.words) (← ref lhs) (← ref rhs)))
  | [.text "unary", op, operand] => do
    pure (push (.unary (← op.oneOf UnaryOp.words) (← ref operand)))
  | [.text "paren", expr] => do pure (push (.paren (← ref expr)))
  | [.text "block", stmts] => do pure (block (← refs stmts))
  | [.text "local", text, expr] => do pure (locals [← text.str] [← ref expr])
  | [.text "local_decl", text] => do pure (locals [← text.str] [])
  | [.text "locals", names, exprs] => do pure (locals (← names.strs) (← refs exprs))
  | [.text "local_function", text, func] => do pure (localFunction (← text.str) (← ref func))
  | [.text "function_stat", target, func] => do
    pure (push (.functionStat (← ref target) false (← ref func)))
  | [.text "method_stat", base, method, func] => do
    pure (methodStat (← base.str) (← method.str) (← ref func))
  | [.text "assign", targets, exprs] => do pure (push (.assign (← refs targets) (← refs exprs)))
  | [.text "return", exprs] => do pure (push (.ret (← refs exprs)))
  | [.text "if", arms, body] => do
    pure (ifStat (← arms.listOf (Value.pairOf ref refs)) (← body.optional refs))
  | [.text "while", cond, body] => do pure (whileStat (← ref cond) (← refs body))
  | [.text "repeat", body, cond] => do pure (repeatStat (← refs body) (← ref cond))
  | [.text "numeric_for", var, start, limit, step, body] => do
    pure (numericFor (← var.str) (← ref start) (← ref limit) (← ref step) (← refs body))
  | [.text "generic_for", names, exprs, body] => do
    pure (genericFor (← names.strs) (← refs exprs) (← refs body))
  | [.text "do", body] => do pure (doStat (← refs body))
  | [.text "expr_stat", expr] => do pure (push (.exprStat (← ref expr)))
  | [.text "break"] => pure (push .breakStat)
  | _ => throw "unknown step"

end BuildM

namespace Tree

/-- Runs the steps of construction in order, and says which node each made. -/
def readSteps : Builder → List Value → ReadM (List NodeRef × Builder)
  | builder, [] => pure ([], builder)
  | builder, value :: rest => do
    let (node, builder) := (← BuildM.read value).run builder
    let (made, builder) ← readSteps builder rest
    pure (node :: made, builder)

/-- Adds nodes in order. -/
def readNodes : Tree → List Value → ReadM Tree
  | tree, [] => pure tree
  | tree, value :: rest => do
    match ← value.items with
    | [form, start, stop, parent] =>
      let node : Node := ⟨← Form.read form, ⟨← start.nat, ← stop.nat⟩, ← NodeRef.read parent⟩
      readNodes (tree.add node).2 rest
    | _ => throw "unknown node"

/-- Reads a tree, with the node that each step made or each given node became. -/
def read (value : Value) : ReadM (List NodeRef × Tree) := do
  if (value.get "build").isNull then
    let tree ← readNodes Tree.empty (← (value.get "nodes").items)
    let docs ← (value.get "docs").listOf (Value.pairOf NodeRef.read DocComment.read)
    let tree := docs.foldl (fun tree (node, doc) => tree.attachDoc node doc) tree
    pure ((List.range tree.size).map some, tree.setRoot (← NodeRef.read (value.get "root")))
  else
    let (made, builder) ← readSteps Builder.empty (← (value.get "build").items)
    let stmts ← NodeRef.readList (value.get "finish")
    pure (made, ((BuildM.finish stmts).run builder).2.tree)

/-- Writes a node with the children it has. -/
def writeNode (node : Node) : Value :=
  .record [("data", node.form.write), ("span", .text node.span.render),
    ("parent", NodeRef.write node.parent), ("children", .ofList .ofNat node.form.children),
    ("stmt", .bool node.form.isStatement)]

end Tree

end LuaTyping
