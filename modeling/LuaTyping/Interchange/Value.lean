/-!
# Interchange values

Types, annotations, trees and declarations are exchanged with other tools as plain nested data. This
module has the data and the small readers and writers the others are made of. A field that is
absent and one that is null mean the same, so reading a field never fails; reading it as something
may.
-/

set_option autoImplicit false

namespace LuaTyping

/-- A piece of exchanged data. -/
inductive Value where
  | null
  | bool (value : Bool)
  | int (value : Int)
  /-- A number that is no integer. Nothing depends on which one it is. -/
  | fraction
  | text (value : String)
  | list (items : List Value)
  | record (fields : List (String × Value))
deriving Inhabited

/-- A reading, or what was wrong with the data. -/
abbrev ReadM := Except String

namespace Value

mutual

/-- How deep a value is nested. -/
def depth : Value → Nat
  | .list items => depthItems items + 1
  | .record fields => depthFields fields + 1
  | _ => 1
termination_by structural value => value

/-- The depth of the deepest item. -/
def depthItems : List Value → Nat
  | [] => 0
  | item :: rest => max (depth item) (depthItems rest)
termination_by structural items => items

/-- The depth of the deepest field. -/
def depthFields : List (String × Value) → Nat
  | [] => 0
  | (_, value) :: rest => max (depth value) (depthFields rest)
termination_by structural fields => fields

end

/-! ### Reading -/

/-- The field called `key`, null if there is none. -/
def get (value : Value) (key : String) : Value :=
  match value with
  | .record fields => (fields.lookup key).getD .null
  | _ => .null

def isNull : Value → Bool
  | .null => true
  | _ => false

def str : Value → ReadM String
  | .text value => pure value
  | _ => throw "expected a text"

def flag : Value → ReadM Bool
  | .bool value => pure value
  | _ => throw "expected a truth value"

def nat : Value → ReadM Nat
  | .int (.ofNat value) => pure value
  | _ => throw "expected a natural number"

/-- The items of a list. -/
def items : Value → ReadM (List Value)
  | .list items => pure items
  | .null => pure []
  | _ => throw "expected a list"

/-- Reads a value that may be absent. -/
def optional {α : Type} (read : Value → ReadM α) (value : Value) : ReadM (Option α) :=
  if value.isNull then pure none else some <$> read value

/-- Reads a truth value, false if absent. -/
def flagOrFalse (value : Value) : ReadM Bool := do pure ((← optional flag value).getD false)

/-- Reads every item of a list. -/
def listOf {α : Type} (read : Value → ReadM α) (value : Value) : ReadM (List α) := do
  (← value.items).mapM read

def strs : Value → ReadM (List String) := listOf str

/-- Reads a list of two items. -/
def pairOf {α β : Type} (first : Value → ReadM α) (second : Value → ReadM β) (value : Value) :
    ReadM (α × β) := do
  match ← value.items with
  | [a, b] => pure (← first a, ← second b)
  | _ => throw "expected a pair"

/-- The only field of a record, by which alternatives are told apart. -/
def tagged : Value → ReadM (String × Value)
  | .record [field] => pure field
  | .text name => pure (name, .null)
  | _ => throw "expected a tagged value"

/-- Reads a word by a table of words. -/
def oneOf {α : Type} (words : List (String × α)) (value : Value) : ReadM α := do
  match words.lookup (← value.str) with
  | some meaning => pure meaning
  | none => throw "unknown word"

/-! ### Writing -/

def ofNat (n : Nat) : Value := .int n

def ofOption {α : Type} (write : α → Value) : Option α → Value
  | some a => write a
  | none => .null

def ofList {α : Type} (write : α → Value) (xs : List α) : Value := .list (xs.map write)

def texts : List String → Value := ofList .text

/-- The word for a meaning in a table of words. -/
def wordFor {α : Type} [BEq α] (words : List (String × α)) (meaning : α) : Value :=
  match words.find? fun entry => entry.2 == meaning with
  | some entry => .text entry.1
  | none => .null

end Value

end LuaTyping
