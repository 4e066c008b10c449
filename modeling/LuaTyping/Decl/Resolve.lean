import LuaTyping.Decl.Snapshot
import LuaTyping.Guard.Limits

/-!
# Resolving names

A bare name is looked up in three places, and the first that knows it decides: the scopes around
the reference, then the members of the owner of the method around it, then the globals of the whole
project.

A member of a class is looked up in the class and then in the classes above it, the nearer ones
first.
-/

set_option autoImplicit false

namespace LuaTyping.Snapshot

/-- The classes reached from those in `pending`, breadth first and each once: at most `room` of
them, and none of the `visited` ones. -/
def chainWithin (supertypes : String → List String) :
    (room : Nat) → (visited pending : List String) → List String
  | 0, _, _ => []
  | room + 1, visited, pending =>
    match pending.dropWhile fun name => visited.contains name with
    | [] => []
    | current :: rest =>
      current :: chainWithin supertypes room (current :: visited) (rest ++ supertypes current)

/-- A class followed by the classes above it, the nearer ones first. -/
def classChain (snapshot : Snapshot) (name : String) : List String :=
  chainWithin snapshot.supertypes Limits.supertypeChain [] [name]

/-- Whether a declaration has the given name. -/
def isNamed (snapshot : Snapshot) (name : String) (key : DeclKey) : Bool :=
  match snapshot.entry? key with
  | some entry => entry.name == name
  | none => false

/-- The declarations with the given name, as many as are considered for one reference. -/
def named (snapshot : Snapshot) (keys : List DeclKey) (name : String) : List DeclKey :=
  (keys.filter (snapshot.isNamed name)).take Limits.candidates

/-- The declarations of a member in the nearest class that has any. -/
def resolveClassMember (snapshot : Snapshot) (className member : String) : List DeclKey :=
  ((snapshot.classChain className).findSome? fun name =>
    match snapshot.named (snapshot.classMembers name) member with
    | [] => none
    | found => some found).getD []

/-- The declarations of a member of an owner. -/
def resolveMember (snapshot : Snapshot) (file : FileId) (owner : Owner) (member : String) :
    List DeclKey :=
  match owner with
  | .ofClass name => snapshot.resolveClassMember name member
  | owner => snapshot.named (snapshot.ownerMembers file owner) member

/-- The owner of the innermost method around a scope, through at most `steps` scopes. -/
def methodOwnerWithin (decls : FileDecls) : (steps : Nat) → Option Nat → Option Owner
  | 0, _ => none
  | steps + 1, scope =>
    match decls.table.scope? scope with
    | none => none
    | some found =>
      let owner := if found.kind = .function then
          (decls.function? found.function).bind FunctionInfo.methodOf
        else none
      match owner with
      | some owner => some owner
      | none => methodOwnerWithin decls steps found.parent

/-- The owner of the innermost method around a scope. -/
def methodOwner? (decls : FileDecls) (scope : Option Nat) : Option Owner :=
  methodOwnerWithin decls decls.table.scopes.size scope

/-- The declarations that a name may refer to at an offset of a file. -/
def resolveName (snapshot : Snapshot) (file : FileId) (name : String) (pos : Nat) :
    List DeclKey :=
  match snapshot.decls? file with
  | none => []
  | some decls =>
    let scope := decls.table.scopeAt pos
    match decls.table.lookup name pos scope with
    | some decl => [⟨file, decl⟩]
    | none =>
      let members := match methodOwner? decls scope with
        | some owner => snapshot.resolveMember file owner name
        | none => []
      if members.isEmpty then (snapshot.globalDecls name).take Limits.candidates else members

end LuaTyping.Snapshot
