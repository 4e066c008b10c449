import LuaTyping.Interchange.Types
import LuaTyping.Tree.Annotation

/-!
# Annotations as interchange values

Tags and type expressions are records with one field that names their constructor. A name without
arguments may be read from a plain word, and is always written in full.
-/

set_option autoImplicit false

namespace LuaTyping

namespace TypeExpr

/-- Reads a type expression that is nested less than `depth` deep. -/
def readWithin : (depth : Nat) → Value → ReadM TypeExpr
  | 0, _ => throw "nested too deep"
  | depth + 1, value => do
    let inner := readWithin depth
    let fields (v : Value) : ReadM (List (String × TypeExpr)) :=
      v.listOf (Value.pairOf Value.str inner)
    match ← value.tagged with
    | ("Missing", .null) => pure .missing
    | (word, .null) => pure (.name word [])
    | ("Name", v) => do pure (.name (← (v.get "name").str) (← (v.get "args").listOf inner))
    | ("Array", v) => do pure (.array (← inner v))
    | ("Union", v) => do pure (.union (← v.listOf inner))
    | ("Function", v) => do
      pure (.function (← fields (v.get "params")) (← (v.get "returns").listOf inner)
        (← (v.get "variadic").flagOrFalse))
    | ("Table", v) => do pure (.table (← fields (v.get "fields")))
    | ("StringLiteral", v) => do pure (.literal (← v.str))
    | ("Tuple", v) => do pure (.tuple (← v.listOf inner))
    | _ => throw "unknown type expression"

/-- Reads a type expression. -/
def read (value : Value) : ReadM TypeExpr := readWithin (value.depth + 1) value

mutual

/-- Writes a type expression. -/
def write : TypeExpr → Value
  | .name text args =>
    .record [("Name", .record [("name", .text text), ("args", .list (writeList args))])]
  | .array element => .record [("Array", write element)]
  | .union alts => .record [("Union", .list (writeList alts))]
  | .function params returns variadic =>
    .record [("Function", .record [("params", .list (writeFields params)),
      ("returns", .list (writeList returns)), ("variadic", .bool variadic)])]
  | .table fields => .record [("Table", .record [("fields", .list (writeFields fields))])]
  | .literal text => .record [("StringLiteral", .text text)]
  | .tuple elements => .record [("Tuple", .list (writeList elements))]
  | .missing => .text "Missing"
termination_by structural expr => expr

/-- `write` over a list of expressions. -/
def writeList : List TypeExpr → List Value
  | [] => []
  | expr :: rest => write expr :: writeList rest
termination_by structural exprs => exprs

/-- Writes named expressions as pairs. -/
def writeFields : List (String × TypeExpr) → List Value
  | [] => []
  | (field, expr) :: rest => .list [.text field, write expr] :: writeFields rest
termination_by structural fields => fields

end

end TypeExpr

namespace TypeParam

/-- Reads a type parameter from its name or from a record. -/
def read : Value → ReadM TypeParam
  | .text name => pure ⟨name, none⟩
  | v => do pure ⟨← (v.get "name").str, ← (v.get "constraint").optional TypeExpr.read⟩

/-- Writes a type parameter. -/
def write (param : TypeParam) : Value :=
  .record [("name", .text param.name), ("constraint", .ofOption TypeExpr.write param.bound)]

end TypeParam

namespace Tag

/-- Reads a tag. -/
def read (value : Value) : ReadM Tag := do
  let (kind, v) ← value.tagged
  let name := (v.get "name").str
  let ty := TypeExpr.read (v.get "ty")
  match kind with
  | "Class" => do pure (.classTag (← name) (← (v.get "supers").strs))
  | "Field" => do pure (.fieldTag (← Visibility.read (v.get "visibility")) (← name) (← ty))
  | "Param" => do pure (.paramTag (← name) (← ty))
  | "Return" => do pure (.returnTag (← (v.get "tys").listOf TypeExpr.read))
  | "Alias" => do pure (.aliasTag (← name) (← (v.get "generics").listOf TypeParam.read) (← ty))
  | "Generic" => do pure (.genericTag (← (v.get "params").listOf TypeParam.read))
  | "Type" => do pure (.typeTag (← ty))
  | "Deprecated" => pure .deprecatedTag
  | "Overload" => do pure (.overloadTag (← ty))
  | _ => throw "unknown tag"

/-- Writes a tag. -/
def write : Tag → Value
  | .classTag name supers =>
    .record [("Class", .record [("name", .text name), ("supers", .texts supers)])]
  | .fieldTag visibility name ty =>
    .record [("Field", .record [("visibility", .text visibility.keyword), ("name", .text name),
      ("ty", ty.write)])]
  | .paramTag name ty => .record [("Param", .record [("name", .text name), ("ty", ty.write)])]
  | .returnTag tys => .record [("Return", .record [("tys", .ofList TypeExpr.write tys)])]
  | .aliasTag name generics ty =>
    .record [("Alias", .record [("name", .text name),
      ("generics", .ofList TypeParam.write generics), ("ty", ty.write)])]
  | .genericTag params =>
    .record [("Generic", .record [("params", .ofList TypeParam.write params)])]
  | .typeTag ty => .record [("Type", .record [("ty", ty.write)])]
  | .deprecatedTag => .text "Deprecated"
  | .overloadTag ty => .record [("Overload", .record [("ty", ty.write)])]

end Tag

namespace DocComment

/-- Reads a comment from a list of tags. -/
def read (value : Value) : ReadM DocComment := do pure ⟨← value.listOf Tag.read⟩

end DocComment

end LuaTyping
