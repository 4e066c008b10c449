import LuaTyping.Text.Blank

/-!
# Names of log layouts

The word that selects how log lines are laid out. Blanks around the word and ASCII case do not
matter, and any other word selects plain text.
-/

set_option autoImplicit false

namespace LuaTyping

/-- How log lines are laid out. -/
inductive LogFormat where
  | text
  | tree
  | json
deriving DecidableEq, Inhabited, Repr

namespace LogFormat

/-- The layout a word selects. -/
def ofWord (word : String) : LogFormat :=
  match Text.asciiLower (Text.trimBlank word) with
  | "tree" => .tree
  | "json" => .json
  | _ => .text

/-- The name of a layout. -/
def name : LogFormat → String
  | .text => "Text"
  | .tree => "Tree"
  | .json => "Json"

end LogFormat

end LuaTyping
