/-!
# Reading JSON text

A reader takes the text still to be read and either stops with a fault or gives its result and the
text after it. What a reader is to find is known beforehand, so there is no tree of JSON values:
the text is taken apart in one pass and the first fault in it ends the reading. All faults look
alike, except the one for a word that was to name a truth value, which keeps the word.

The JSON is strict: no byte order mark, no leading zeros, no control characters in a string and
nothing after the value. A string that is used has to be proper text, so a surrogate escape needs
its partner; in a string that is passed over an escape only has to have four digits.
-/

set_option autoImplicit false

namespace LuaTyping.JsonText

/-- Why a text cannot be read. -/
inductive Fault where
  /-- It is not JSON, or not of the shape that was asked for. -/
  | malformed
  /-- The word stands where a truth value is asked for and names none. -/
  | notBoolean (word : String)
deriving DecidableEq, Inhabited, Repr

/-- The explanation of a word that names no truth value. -/
def Fault.explanation? : Fault → Option String
  | .malformed => none
  | .notBoolean word =>
    some ("invalid boolean value: '" ++ word ++ "'. Expected true, false, 'true', or 'false'")

/-- What reads a value off the front of a text. -/
abbrev Reader (α : Type) := StateT (List Char) (Except Fault) α

/-- Ends the reading. -/
def refuse {α : Type} : Reader α :=
  throw .malformed

/-- The value, or the end of the reading where there is none. -/
def orRefuse {α : Type} : Option α → Reader α
  | some value => pure value
  | none => refuse

/-! ## Layout and words -/

/-- The characters that may stand between the parts of a JSON text. -/
def isLayout (c : Char) : Bool :=
  c == ' ' || c == '\n' || c == '\t' || c == '\r'

def skipLayout : Reader Unit :=
  modify (List.dropWhile isLayout)

/-- The next character after layout, which is left unread. -/
def peek : Reader (Option Char) := do
  skipLayout
  return (← get).head?

/-- Passes over layout and then the given character. -/
def expect (c : Char) : Reader Unit := do
  skipLayout
  match ← get with
  | d :: rest => if d = c then set rest else refuse
  | [] => refuse

/-- Passes over layout and then the given word. -/
def expectWord (word : String) : Reader Unit := do
  skipLayout
  let text ← get
  if word.toList.isPrefixOf text then set (text.drop word.length) else refuse

/-! ## Strings -/

/-- A piece of a string: a character, or the sixteen-bit unit of a `\u` escape. -/
inductive Piece where
  | char (c : Char)
  | unit (code : Nat)
deriving DecidableEq, Inhabited, Repr

/-- The value of a hexadecimal digit. -/
def hexDigit? (c : Char) : Option Nat :=
  if '0' ≤ c ∧ c ≤ '9' then some (c.toNat - '0'.toNat)
  else if 'a' ≤ c ∧ c ≤ 'f' then some (c.toNat - 'a'.toNat + 10)
  else if 'A' ≤ c ∧ c ≤ 'F' then some (c.toNat - 'A'.toNat + 10)
  else none

/-- The character that the given one stands for after a backslash. -/
def escaped? : Char → Option Char
  | '"' => some '"'
  | '\\' => some '\\'
  | '/' => some '/'
  | 'b' => some '\x08'
  | 'f' => some '\x0c'
  | 'n' => some '\n'
  | 'r' => some '\r'
  | 't' => some '\t'
  | _ => none

/-- Divides a text, of which the opening quote has been read, at the closing quote. The flag says
whether a backslash stands just before. -/
def splitAtQuote : Bool → List Char → Option (List Char × List Char)
  | _, [] => none
  | true, c :: rest => (splitAtQuote false rest).map fun (inner, after) => (c :: inner, after)
  | false, c :: rest =>
    if c = '"' then some ([], rest)
    else if c.toNat < 0x20 then none
    else (splitAtQuote (c == '\\') rest).map fun (inner, after) => (c :: inner, after)

/-- The pieces of what stands between the quotes. -/
def pieces? : List Char → Option (List Piece)
  | [] => some []
  | '\\' :: 'u' :: a :: b :: c :: d :: rest => do
    let a ← hexDigit? a
    let b ← hexDigit? b
    let c ← hexDigit? c
    let d ← hexDigit? d
    return .unit (((a * 16 + b) * 16 + c) * 16 + d) :: (← pieces? rest)
  | '\\' :: c :: rest => do return .char (← escaped? c) :: (← pieces? rest)
  | ['\\'] => none
  | c :: rest => do return .char c :: (← pieces? rest)

/-- The first half of a character beyond the sixteen-bit range. -/
def isHighSurrogate (code : Nat) : Bool := 0xd800 ≤ code && code < 0xdc00

/-- The second half of a character beyond the sixteen-bit range. -/
def isLowSurrogate (code : Nat) : Bool := 0xdc00 ≤ code && code < 0xe000

/-- The characters of the pieces. Surrogates have to stand in pairs. -/
def joinPieces? : List Piece → Option (List Char)
  | [] => some []
  | .char c :: rest => (joinPieces? rest).map (c :: ·)
  | .unit high :: .unit low :: rest =>
    if isHighSurrogate high then
      if isLowSurrogate low then
        (joinPieces? rest).map
          (Char.ofNat (0x10000 + (high - 0xd800) * 0x400 + (low - 0xdc00)) :: ·)
      else none
    else if isLowSurrogate high then none
    else (joinPieces? (.unit low :: rest)).map (Char.ofNat high :: ·)
  | .unit code :: rest =>
    if isHighSurrogate code || isLowSurrogate code then none
    else (joinPieces? rest).map (Char.ofNat code :: ·)

/-- Reads the pieces of a string. -/
def stringPieces : Reader (List Piece) := do
  expect '"'
  let (inner, rest) ← orRefuse (splitAtQuote false (← get))
  set rest
  orRefuse (pieces? inner)

/-- Reads a string. -/
def string : Reader String := do
  return String.ofList (← orRefuse (joinPieces? (← stringPieces)))

/-! ## Numbers -/

/-- The text after one or more digits. -/
def afterDigits? : List Char → Option (List Char)
  | c :: rest => if c.isDigit then some (rest.dropWhile Char.isDigit) else none
  | [] => none

/-- The text after the whole part of a number. A zero stands alone. -/
def afterWhole? : List Char → Option (List Char)
  | '0' :: c :: rest => if c.isDigit then none else some (c :: rest)
  | text => afterDigits? text

/-- The text after the fraction, if there is one. -/
def afterFraction? : List Char → Option (List Char)
  | '.' :: rest => afterDigits? rest
  | text => some text

/-- The text after a sign, if there is one. -/
def afterSign : List Char → List Char
  | c :: rest => if c = '+' || c = '-' then rest else c :: rest
  | [] => []

/-- The text after the exponent, if there is one. -/
def afterExponent? : List Char → Option (List Char)
  | c :: rest => if c = 'e' || c = 'E' then afterDigits? (afterSign rest) else some (c :: rest)
  | [] => some []

/-- The text after a number of any size. -/
def afterNumber? (text : List Char) : Option (List Char) := do
  let unsigned := match text with
    | '-' :: rest => rest
    | _ => text
  afterExponent? (← afterFraction? (← afterWhole? unsigned))

/-- The number that decimal digits name. -/
def decimal (digits : List Char) : Nat :=
  digits.foldl (fun value c => value * 10 + (c.toNat - '0'.toNat)) 0

/-- Reads a natural number below `2 ^ 32`, written as digits alone. -/
def natural : Reader Nat := do
  skipLayout
  let text ← get
  let rest ← orRefuse (afterWhole? text)
  if afterFraction? rest = some rest ∧ afterExponent? rest = some rest then
    let value := decimal (text.takeWhile Char.isDigit)
    if value < 4294967296 then
      set rest
      return value
    else refuse
  else refuse

/-! ## Truth values and null -/

/-- Reads `true` or `false`. -/
def boolean : Reader Bool := do
  match ← peek with
  | some 't' => expectWord "true"; return true
  | some 'f' => expectWord "false"; return false
  | _ => refuse

/-- Reads `null` as nothing, and all else with the given reader. -/
def optional {α : Type} (reader : Reader α) : Reader (Option α) := do
  match ← peek with
  | some 'n' => expectWord "null"; return none
  | _ => return some (← reader)

/-! ## Whole texts -/

/-- Reads a text of which nothing but layout may be left over. -/
def readAll {α : Type} (reader : Reader α) (text : String) : Except Fault α := do
  let (value, rest) ← reader.run text.toList
  if rest.all isLayout then return value else throw .malformed

end LuaTyping.JsonText
