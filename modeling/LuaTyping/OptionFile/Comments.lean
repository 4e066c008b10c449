import LuaTyping.Text.Blank

/-!
# Comments and trailing commas

An option file is JSON in which comments may stand between the parts, `//` up to the end of the
line and `/*` up to the next `*/`, and a comma may stand before a closing bracket. Both are dropped
before the JSON is read. The line breaks of comments stay, so that lines keep their numbers, and
inside a string nothing is dropped.

Whether a comma is dropped is decided by the first character after it that belongs to no comment
and is not blank.
-/

set_option autoImplicit false

namespace LuaTyping.OptionFile

/-- Where a place inside a comment stands. -/
inductive Comment where
  /-- In a comment that ends with its line. -/
  | line
  /-- In a comment that ends with `*/`, and whether the last character is a star. -/
  | block (afterStar : Bool)
deriving DecidableEq, Inhabited, Repr

/-- The place after one more character of a comment, nowhere if that character ends it. -/
def Comment.next? : Comment → Char → Option Comment
  | .line, c => if c = '\n' then none else some .line
  | .block afterStar, c => if afterStar && c = '/' then none else some (.block (c = '*'))

/-- The comment that the two characters open. -/
def Comment.opened? : Char → Char → Option Comment
  | '/', '/' => some .line
  | '/', '*' => some (.block false)
  | _, _ => none

/-- The first character that is neither blank nor part of a comment. -/
def nextSignificant? : Option Comment → List Char → Option Char
  | _, [] => none
  | some comment, c :: rest => nextSignificant? (comment.next? c) rest
  | none, [c] => if Text.isBlank c then none else some c
  | none, c :: d :: rest =>
    if Text.isBlank c then nextSignificant? none (d :: rest)
    else
      match Comment.opened? c d with
      | some comment => nextSignificant? (some comment) rest
      | none => some c

/-- Whether the next significant character is a closing bracket. -/
def closesNext (text : List Char) : Bool :=
  match nextSignificant? none text with
  | some c => c == '\x7d' || c == ']'
  | none => false

/-- Where a place in an option file stands. -/
inductive Place where
  | plain
  /-- In a string, and whether the last character is a backslash that escapes the next one. -/
  | quoted (afterBackslash : Bool)
  | comment (within : Comment)
deriving DecidableEq, Inhabited, Repr

/-- The text without what is to be dropped, when reading begins at the given place. -/
def stripFrom : Place → List Char → List Char
  | _, [] => []
  | .quoted true, c :: rest => c :: stripFrom (.quoted false) rest
  | .quoted false, c :: rest =>
    c :: stripFrom (if c = '"' then .plain else .quoted (c = '\\')) rest
  | .comment within, c :: rest =>
    let after := match within.next? c with
      | some within => Place.comment within
      | none => Place.plain
    if c = '\n' then c :: stripFrom after rest else stripFrom after rest
  | .plain, [c] => [c]
  | .plain, c :: d :: rest =>
    match Comment.opened? c d with
    | some within => stripFrom (.comment within) rest
    | none =>
      if c = '"' then c :: stripFrom (.quoted false) (d :: rest)
      else if c = ',' && closesNext (d :: rest) then stripFrom .plain (d :: rest)
      else c :: stripFrom .plain (d :: rest)

/-- The JSON text of an option file. -/
def strip (source : String) : String :=
  String.ofList (stripFrom .plain source.toList)

end LuaTyping.OptionFile
