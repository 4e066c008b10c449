/-!
# Blank characters

The white-space characters that are dropped from both ends of a word before it is compared with a
keyword, and the folding of ASCII capitals that goes with it.
-/

set_option autoImplicit false

namespace LuaTyping.Text

/-- White space in the widest sense: the ASCII layout characters, the no-break and fixed-width
spaces, and the line and paragraph separators. -/
def isBlank (c : Char) : Bool :=
  let code := c.toNat
  (9 ≤ code && code ≤ 13) || code == 0x20 || code == 0x85 || code == 0xa0 || code == 0x1680
    || (0x2000 ≤ code && code ≤ 0x200a) || code == 0x2028 || code == 0x2029 || code == 0x202f
    || code == 0x205f || code == 0x3000

/-- The text without the blank characters at its ends. -/
def trimBlank (text : String) : String :=
  String.ofList (((text.toList.dropWhile isBlank).reverse.dropWhile isBlank).reverse)

/-- The text with the capitals A to Z made small; no other character changes. -/
def asciiLower (text : String) : String :=
  text.map Char.toLower

end LuaTyping.Text
