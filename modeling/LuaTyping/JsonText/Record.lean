import LuaTyping.JsonText.Reader

/-!
# Lists and records in JSON text

A record of known fields is written either with the fields' names or as the list of their values in
the order of the fields. With names, a field may stand anywhere but only once, and what goes by
another name is passed over, however it is nested. As a list, fields at the end may be left out and
none may be added.
-/

set_option autoImplicit false

namespace LuaTyping.JsonText

/-- Reads items up to the closing bracket, with commas between them, and threads a state through
them. Every item takes at least one character, so the length of the text bounds their number. -/
def itemsUpTo {σ : Type} (close : Char) (item : σ → Reader σ) : Nat → Bool → σ → Reader σ
  | 0, _, _ => refuse
  | bound + 1, isFirst, state => do
    if (← peek) = some close then
      expect close
      return state
    else
      unless isFirst do expect ','
      itemsUpTo close item bound false (← item state)

/-- Reads what stands between two brackets. -/
def bracketed {σ : Type} (opening close : Char) (item : σ → Reader σ) (state : σ) : Reader σ := do
  expect opening
  itemsUpTo close item ((← get).length + 1) true state

/-- Reads a list. -/
def list {α : Type} (reader : Reader α) : Reader (List α) := do
  let reversed ← bracketed '[' ']' (fun items => do return (← reader) :: items) []
  return reversed.reverse

/-- Passes over a value that is nested no deeper than the bound. -/
def skipNested : Nat → Reader Unit
  | 0 => refuse
  | depth + 1 => do
    match ← peek with
    | some '"' => discard stringPieces
    | some '[' => bracketed '[' ']' (fun _ => skipNested depth) ()
    | some '\x7b' =>
      bracketed '\x7b' '\x7d'
        (fun _ => do
          discard stringPieces
          expect ':'
          skipNested depth)
        ()
    | some 't' => expectWord "true"
    | some 'f' => expectWord "false"
    | some 'n' => expectWord "null"
    | _ => set (← orRefuse (afterNumber? (← get)))

/-- Passes over a value. The text is longer than the value is deep. -/
def skipValue : Reader Unit := do
  skipNested ((← get).length + 1)

/-- Reads the values of the fields in order, up to the end of a list. Gives the fields found, the
last first. -/
def positional {σ : Type} (assign : String → σ → Reader σ) :
    List String → List String → σ → Reader (List String × σ)
  | [], found, state => do
    expect ']'
    return (found, state)
  | field :: fields, found, state => do
    if (← peek) = some ']' then
      expect ']'
      return (found, state)
    else
      unless found.isEmpty do expect ','
      positional assign fields (field :: found) (← assign field state)

/-- Reads one named field. -/
def namedField {σ : Type} (fields : List String) (assign : String → σ → Reader σ) :
    List String × σ → Reader (List String × σ)
  | (found, state) => do
    let name ← string
    expect ':'
    if name ∈ fields then
      if name ∈ found then refuse
      else return (name :: found, ← assign name state)
    else
      skipValue
      return (found, state)

/-- Reads a record. `assign` reads the value of the named field into the state. Gives the fields
found along with the final state. -/
def record {σ : Type} (fields : List String) (assign : String → σ → Reader σ) (start : σ) :
    Reader (List String × σ) := do
  match ← peek with
  | some '[' =>
    expect '['
    positional assign fields [] start
  | _ => bracketed '\x7b' '\x7d' (namedField fields assign) ([], start)

end LuaTyping.JsonText
