/-!
# Member visibility

The access level a documented field may carry.
-/

set_option autoImplicit false

namespace LuaTyping

/-- Who may use a member. An undocumented member is public. -/
inductive Visibility where
  | publicAccess
  | protectedAccess
  | privateAccess
deriving DecidableEq, Inhabited, Repr

namespace Visibility

/-- The keyword of an access level. -/
def keyword : Visibility → String
  | .publicAccess => "public"
  | .protectedAccess => "protected"
  | .privateAccess => "private"

/-- The access levels, most open first. -/
def all : List Visibility := [.publicAccess, .protectedAccess, .privateAccess]

/-- The access level with the given keyword. Keywords are compared exactly. -/
def ofKeyword? (word : String) : Option Visibility :=
  all.find? fun level => level.keyword == word

end Visibility

end LuaTyping
