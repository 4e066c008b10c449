import LuaTyping.Guard.Limits

/-!
# Searching supertype links

A class names its direct supertypes, and those name theirs. The links may branch, meet again and
run in circles. The search below looks for one class among the ancestors of others. It takes a
class at a time from the classes still to be looked at, skips one it has already expanded, and
gives up after a fixed number of classes, so it ends on any links.
-/

set_option autoImplicit false

namespace LuaTyping

/-- Where the supertypes of an expanded class join the classes still to be looked at. -/
inductive SearchOrder where
  /-- The classes found last come first, the last of them foremost. -/
  | depthFirst
  /-- The classes found first come first. -/
  | breadthFirst
deriving DecidableEq, Inhabited, Repr

/-- The classes still to be looked at once `found` join the ones in `pending`. -/
def SearchOrder.extend (order : SearchOrder) (found pending : List String) : List String :=
  match order with
  | .depthFirst => found.reverse ++ pending
  | .breadthFirst => pending ++ found

/-- Whether the search meets `target` before it runs out of classes. `steps` classes may be
expanded; the one after the last is still compared with the target. -/
def meets (supertypes : String → List String) (order : SearchOrder) (target : String) :
    (steps : Nat) → (visited pending : List String) → Bool
  | _, _, [] => false
  | 0, _, name :: _ => name == target
  | steps + 1, visited, name :: rest =>
    name == target ||
      if visited.contains name then meets supertypes order target steps visited rest
      else
        meets supertypes order target steps (name :: visited)
          (order.extend (supertypes name) rest)

end LuaTyping
