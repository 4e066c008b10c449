import LuaTyping.Interchange.Value
import LuaTyping.Ty.Bindings
import LuaTyping.Ty.Format

/-!
# Types as interchange values

A primitive type is a word, and every other type a record with one field that names its
constructor. Unions are built anew when they are read, so a union that is read is normal whatever
was written.

Reading also knows a few short forms: the words for any table and any function, a class by name
only, a record by its fields, and a type wrapped many times over.
-/

set_option autoImplicit false

namespace LuaTyping

namespace Visibility

/-- Reads an access level, public if absent. -/
def read (value : Value) : ReadM Visibility := do
  match ← value.optional Value.str with
  | none => pure .publicAccess
  | some word =>
    match ofKeyword? word with
    | some level => pure level
    | none => throw "unknown access level"

end Visibility

namespace Ty

/-- The types that are written as words. -/
def readWord? : String → Option Ty
  | "unknown" => some .unknown
  | "nil" => some .nil
  | "boolean" => some .boolean
  | "number" => some .number
  | "string" => some .string
  | "table" => some table
  | "function" => some anyFunction
  | _ => none

/-- One layer of the named kind around a type. -/
def wrap? (kind : String) (ty : Ty) : Option Ty :=
  match kind with
  | "array" => some (.array ty)
  | "tuple" => some (.tuple [ty])
  | "ret" => some (.function [] ty false [])
  | "param" => some (.function [ty] .nil false [])
  | "rec" => some (.record [] [Member.ofTy "x" ty])
  | _ => none

/-- `count` layers of the named kind around a type. -/
def wrapMany? (kind : String) : (count : Nat) → Ty → Option Ty
  | 0, ty => some ty
  | count + 1, ty => (wrap? kind ty).bind (wrapMany? kind count)

/-- Reads a type that is nested less than `depth` deep. -/
def readWithin : (depth : Nat) → Value → ReadM Ty
  | 0, _ => throw "nested too deep"
  | depth + 1, value => do
    let inner := readWithin depth
    let readMember (value : Value) : ReadM (Member Ty) := do
      let (name, info) ← value.pairOf Value.str pure
      pure
        { name, ty := ← inner (info.get "ty")
          visibility := ← Visibility.read (info.get "visibility")
          deprecated := ← (info.get "deprecated").flagOrFalse
          site := none }
    match ← value.tagged with
    | (word, .null) =>
      match readWord? word with
      | some ty => pure ty
      | none => throw "unknown type"
    | ("lit", v) => do pure (.literal (← v.str))
    | ("generic", v) => do pure (.generic (← v.str))
    | ("class_ref", v) => do pure (classRef (← v.str))
    | ("array", v) => do pure (.array (← inner v))
    | ("tuple", v) => do pure (.tuple (← v.listOf inner))
    | ("union", v) => do pure (unionOf (← v.listOf inner))
    | ("alias", v) => do pure (.aliasRef (← (v.get "name").str) (← (v.get "args").listOf inner))
    | ("fn", v) => do
      pure (.function (← (v.get "params").listOf inner) (← inner (v.get "ret"))
        (← (v.get "variadic").flagOrFalse) (← (v.get "generics").strs))
    | ("class", v) => do
      let supers ← (v.get "supers").strs
      let members := (← (v.get "members").listOf readMember).foldl putMember []
      if ← (v.get "anonymous").flagOrFalse then pure (.record supers members)
      else pure (.named (← (v.get "name").str) supers members)
    | ("rec", v) => do
      let fields ← v.listOf (Value.pairOf Value.str inner)
      pure (.record []
        (fields.foldl (fun members field => putMember members (Member.ofTy field.1 field.2)) []))
    | ("nest", v) => do
      match wrapMany? (← (v.get "kind").str) (← (v.get "n").nat) (← inner (v.get "of")) with
      | some ty => pure ty
      | none => throw "unknown kind of layer"
    | _ => throw "unknown type"

/-- Reads a type. -/
def read (value : Value) : ReadM Ty := readWithin (value.depth + 1) value

/-- Everything about a member but its type, written around its written type. -/
def writeMember (name : String) (ty : Value) (visibility : Visibility) (deprecated : Bool)
    (site : Option Site) : Value :=
  .list [.text name,
    .record [("ty", ty), ("visibility", .text visibility.keyword), ("deprecated", .bool deprecated),
      ("site", .ofOption (fun site => .text site.render) site)]]

/-- A class around its written members. -/
def writeClass (name : String) (anonymous : Bool) (supers : List String) (members : List Value) :
    Value :=
  .record [("name", .text name), ("supers", .texts supers), ("anonymous", .bool anonymous),
    ("members", .list members)]

mutual

/-- Writes a type. -/
def write : Ty → Value
  | .unknown => .text "unknown"
  | .nil => .text "nil"
  | .boolean => .text "boolean"
  | .number => .text "number"
  | .string => .text "string"
  | .literal text => .record [("lit", .text text)]
  | .generic name => .record [("generic", .text name)]
  | .array element => .record [("array", write element)]
  | .tuple elements => .record [("tuple", .list (writeList elements))]
  | .union alts => .record [("union", .list (writeList alts))]
  | .aliasRef name args =>
    .record [("alias", .record [("name", .text name), ("args", .list (writeList args))])]
  | .function params ret variadic generics =>
    .record [("fn", .record [("params", .list (writeList params)), ("ret", write ret),
      ("variadic", .bool variadic), ("generics", .texts generics)])]
  | .named name supers members =>
    .record [("class", writeClass name false supers (writeMembers members))]
  | .record supers members =>
    .record [("class", writeClass tableName true supers (writeMembers members))]
termination_by structural ty => ty

/-- `write` over a list of types. -/
def writeList : List Ty → List Value
  | [] => []
  | ty :: rest => write ty :: writeList rest
termination_by structural tys => tys

/-- Writes members. -/
def writeMembers : List (Member Ty) → List Value
  | [] => []
  | ⟨name, ty, visibility, deprecated, site⟩ :: rest =>
    writeMember name (write ty) visibility deprecated site :: writeMembers rest
termination_by structural members => members

end

/-- A type with its text. -/
def writeShown (ty : Ty) : Value := .record [("ty", ty.write), ("text", .text ty.format)]

end Ty

namespace Bindings

/-- Reads bindings from pairs, later ones over earlier ones. -/
def read (value : Value) : ReadM Bindings := do
  pure (ofList (← value.listOf (Value.pairOf Value.str Ty.read)))

/-- Writes bindings as pairs in ascending order of the names. -/
def write (bindings : Bindings) : Value :=
  .ofList (fun entry : String × Ty => .list [.text entry.1, entry.2.write]) bindings.entries

end Bindings

end LuaTyping
