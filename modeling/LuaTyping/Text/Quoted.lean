import LuaTyping.Text.Hidden

/-!
# Quoted text

How a text is written where it must be told apart from a name: between double quotes, with the
quote, the backslash and the four common control characters as two-character escapes and every
other hidden character as its hexadecimal code point in braces.
-/

set_option autoImplicit false

namespace LuaTyping.Text

/-- The code point in lower-case hexadecimal, without leading zeros. -/
def hexDigits (code : Nat) : List Char :=
  Nat.toDigits 16 code

/-- How one character is written between the quotes. -/
def quoteChar (c : Char) : List Char :=
  if c == '"' then ['\\', '"']
  else if c == '\\' then ['\\', '\\']
  else if c == '\n' then ['\\', 'n']
  else if c == '\r' then ['\\', 'r']
  else if c == '\t' then ['\\', 't']
  else if c == '\x00' then ['\\', '0']
  else if isHidden c then ['\\', 'u', '\x7b'] ++ hexDigits c.toNat ++ ['\x7d']
  else [c]

/-- The text between double quotes, every character written by `quoteChar`. -/
def quoted (text : String) : String :=
  String.ofList ('"' :: text.toList.flatMap quoteChar ++ ['"'])

end LuaTyping.Text
