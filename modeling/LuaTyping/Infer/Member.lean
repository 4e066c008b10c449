import LuaTyping.Infer.Query

/-!
# Members and class values

A member of a class is looked up in the class and then in the classes above it. Where the nearest
class that has it declares it in several ways, only the declarations that count most make up its
type.

The value of a class carries its own members and its direct supertypes. Supertypes whose chain leads
back to the class are left out, so the supertype links of class values never run in a circle.
-/

set_option autoImplicit false

namespace LuaTyping.Infer.Rule

variable (ctx : Context)

/-- How much a declaration counts, and zero for one that is not there. -/
def worthOf (snapshot : Snapshot) (key : DeclKey) : Nat :=
  ((snapshot.entry? key).map fun entry => entry.worth.points).getD 0

/-- The declarations that count most. -/
def bestOf (snapshot : Snapshot) (keys : List DeclKey) : List DeclKey :=
  let best := (keys.map (worthOf snapshot)).foldl max 0
  keys.filter fun key =>
    match snapshot.entry? key with
    | some entry => entry.worth.points == best
    | none => false

/-- The type of a member that is declared in several ways. -/
def bestType (keys : List DeclKey) : Rule Ty := do
  pure (Ty.unionOf (← declTypes (bestOf ctx.snapshot keys)))

/-- The type of a member of a class or of the classes above it. -/
def classMember (className member : String) : Rule Ty :=
  search (ctx.snapshot.classChain className)
where
  /-- The type of the member in the first class of a chain that has it. -/
  search : List String → Rule Ty
    | [] => pure .unknown
    | name :: rest => do
      note name
      match (ctx.snapshot.classMembers name).filter (ctx.snapshot.isNamed member) with
      | [] => search rest
      | keys => bestType ctx keys

mutual

/-- The type of `base.member`. Of a union it is the union over the alternatives. -/
def memberType (member : String) : Ty → Rule Ty
  | .named name _ members =>
    match findMember? members member with
    | some found => pure found.ty
    | none => classMember ctx name member
  | .record _ members => pure (((findMember? members member).map Member.ty).getD .unknown)
  | .union alts => do pure (Ty.unionOf (← memberTypes member alts))
  | _ => pure .unknown
termination_by structural base => base

/-- `memberType` over a list of types. -/
def memberTypes (member : String) : List Ty → Rule (List Ty)
  | [] => pure []
  | base :: rest => do
    let ty ← memberType member base
    let tys ← memberTypes member rest
    pure (ty :: tys)
termination_by structural bases => bases

end

mutual

/-- The type of `base[key]`, by the type of the key. -/
def indexedType (key : Ty) : Ty → Rule Ty
  | .array element => pure (if key.isNumberLike || key.isUnknown then element else .unknown)
  | .tuple elements => pure (if key.isNumberLike then Ty.unionOf elements else .unknown)
  | .named name supers members =>
    match key with
    | .literal member => memberType ctx member (.named name supers members)
    | _ => pure .unknown
  | .record supers members =>
    match key with
    | .literal member => memberType ctx member (.record supers members)
    | _ => pure .unknown
  | .union alts =>
    match key with
    | .literal member => memberType ctx member (.union alts)
    | _ => do pure (Ty.unionOf (← indexedTypes key alts))
  | _ => pure .unknown
termination_by structural base => base

/-- `indexedType` over a list of types. -/
def indexedTypes (key : Ty) : List Ty → Rule (List Ty)
  | [] => pure []
  | base :: rest => do
    let ty ← indexedType key base
    let tys ← indexedTypes key rest
    pure (ty :: tys)
termination_by structural bases => bases

end

/-- Declarations of one name that count equally, in order. -/
structure MemberGroup where
  name : String
  worth : Nat
  keys : List DeclKey
deriving Inhabited

/-- Adds a declaration to the group of its name. It takes over a group that counts less and is
dropped by one that counts more. -/
def addToGroup (name : String) (worth : Nat) (key : DeclKey) :
    List MemberGroup → List MemberGroup
  | [] => [⟨name, worth, [key]⟩]
  | group :: rest =>
    if group.name == name then
      if group.worth < worth then ⟨name, worth, [key]⟩ :: rest
      else if group.worth == worth then { group with keys := group.keys ++ [key] } :: rest
      else group :: rest
    else group :: addToGroup name worth key rest

/-- Declarations grouped by name, in the order in which the names first appear. -/
def groupMembers (snapshot : Snapshot) (keys : List DeclKey) : List MemberGroup :=
  keys.foldl
    (fun groups key =>
      match snapshot.entry? key with
      | some entry => addToGroup entry.name entry.worth.points key groups
      | none => groups)
    []

/-- The member that a group of declarations stands for. The first of them says who may see it and
where it stands. -/
def groupMember (group : MemberGroup) : Rule (Option (Member Ty)) := do
  match group.keys.head?, group.keys.head?.bind ctx.snapshot.entry? with
  | some key, some first =>
    let ty := Ty.unionOf (← declTypes group.keys)
    let deprecated := group.keys.any fun key =>
      ((ctx.snapshot.entry? key).map Entry.deprecated).getD false
    pure (some
      { name := group.name, ty, visibility := first.visibility, deprecated,
        site := some ⟨key.file, first.span⟩ })
  | _, _ => pure none

/-- The members that declarations stand for. -/
def memberList (keys : List DeclKey) : Rule (List (Member Ty)) := do
  let members ← (groupMembers ctx.snapshot keys).mapM (groupMember ctx)
  pure (members.filterMap id)

/-- The direct supertypes of a class whose chain does not lead back to it. -/
def acyclicSupertypes (snapshot : Snapshot) (name : String) : List String :=
  (snapshot.supertypes name).filter fun candidate =>
    !meets snapshot.supertypes .breadthFirst name Limits.supertypeChain [] [candidate]

/-- The value of a class, with the members attached to it. -/
def classValue (name : String) : Rule Ty := do
  let members ← memberList ctx (ctx.snapshot.classMembers name)
  pure (.named name (acyclicSupertypes ctx.snapshot name) members)

/-- What comparing types needs to know of the project's classes. -/
def resolver : Resolver Rule where
  supertypes := ctx.snapshot.supertypes
  lookupMember className member := do
    let ty ← classMember ctx className member
    pure (if ty.isKnown then some ty else none)

/-- The union of types over the classes of the project, unknown if there are none. -/
def projectUnion (tys : List Ty) : Rule Ty := Ty.unionWith (resolver ctx) tys

/-- The union over the declarations of a global. -/
def globalType (name : String) : Rule Ty := do
  note name
  pure (Ty.unionOf (← declTypes (ctx.snapshot.globalDecls name)))

end LuaTyping.Infer.Rule
