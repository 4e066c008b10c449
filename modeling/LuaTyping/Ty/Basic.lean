import LuaTyping.Source
import LuaTyping.Visibility

/-!
# Types

A type describes the shapes a value may take. Compound types hold their parts directly, so a type
is a finite tree; a class refers to other classes by name, which is how recursive shapes arise.

Two kinds of class are told apart by constructor. A *named* class is nominal: it stands for the
class of that name, whatever members this value happens to carry. A *record* is structural: it is
its members. The record without members is the type of any table.

Members are kept in the order in which their names first appeared, and every name appears once;
`putMember` keeps it so.
-/

set_option autoImplicit false

namespace LuaTyping

/-- A member of a class, over any representation of its type. -/
structure Member (α : Type) where
  name : String
  ty : α
  visibility : Visibility
  deprecated : Bool
  site : Option Site
deriving Inhabited

/-- The type of a value. -/
inductive Ty where
  /-- Inference failed, or the value is not yet resolved. -/
  | unknown
  | nil
  | boolean
  | number
  | string
  /-- One particular string. -/
  | literal (text : String)
  /-- A function. `generics` are the type parameters that a call may bind. -/
  | function (params : List Ty) (ret : Ty) (variadic : Bool) (generics : List String)
  /-- A nominal class. `supers` are its direct supertypes only. -/
  | named (name : String) (supers : List String) (members : List (Member Ty))
  /-- A structural class. -/
  | record (supers : List String) (members : List (Member Ty))
  /-- One of several types. Built by `Ty.unionOf`, which keeps the alternatives flat and
  distinct. -/
  | union (alternatives : List Ty)
  /-- A type parameter, bound inside the declaration that introduces it. -/
  | generic (name : String)
  /-- A reference to an alias or class by name, not yet looked up. -/
  | aliasRef (name : String) (args : List Ty)
  | array (element : Ty)
  /-- A fixed sequence, which also stands for several returned values. -/
  | tuple (elements : List Ty)
deriving Inhabited

namespace Member

/-- A public, current member with no recorded place. -/
def ofTy {α : Type} (name : String) (ty : α) : Member α :=
  { name, ty, visibility := .publicAccess, deprecated := false, site := none }

/-- The same member with another type. -/
def withTy {α β : Type} (member : Member α) (ty : β) : Member β :=
  { name := member.name, ty, visibility := member.visibility,
    deprecated := member.deprecated, site := member.site }

end Member

/-- The member called `name`. -/
def findMember? {α : Type} (members : List (Member α)) (name : String) : Option (Member α) :=
  members.find? fun member => member.name == name

/-- Adds a member. One of the same name keeps its place and is replaced. -/
def putMember {α : Type} : List (Member α) → Member α → List (Member α)
  | [], added => [added]
  | member :: rest, added =>
    if member.name == added.name then added :: rest else member :: putMember rest added

namespace Ty

/-- The name under which records are shown. -/
def tableName : String := "table"

/-- The record without members, above every table-like type. -/
def table : Ty := .record [] []

/-- The function that takes anything and returns something unknown. -/
def anyFunction : Ty := .function [] .unknown true []

/-- A class known by name only. -/
def classRef (name : String) : Ty := .named name [] []

def isUnknown : Ty → Bool
  | .unknown => true
  | _ => false

def isKnown (ty : Ty) : Bool := !ty.isUnknown

def isNil : Ty → Bool
  | .nil => true
  | _ => false

/-- The types arithmetic accepts. -/
def isNumberLike : Ty → Bool
  | .number => true
  | _ => false

def isStringLike : Ty → Bool
  | .string | .literal _ => true
  | _ => false

/-- The alternatives of a union; any other type is its own only alternative. -/
def alternatives : Ty → List Ty
  | .union alts => alts
  | ty => [ty]

def containsNil (ty : Ty) : Bool := ty.alternatives.any isNil

/-- What a type that may stand for several values contributes where one value is wanted. -/
def firstValue : Ty → Ty
  | .tuple elements => elements.head?.getD .nil
  | ty => ty

/-- The value at position `index` of a type that may stand for several values. -/
def nthValue (ty : Ty) (index : Nat) : Ty :=
  match ty with
  | .tuple elements => elements[index]?.getD .nil
  | ty => if index == 0 then ty else .nil

/-- The parameters of a function type. -/
def params? : Ty → Option (List Ty)
  | .function params _ _ _ => some params
  | _ => none

/-- The first function among the alternatives, as its parameters and type parameters. -/
def firstFunction? (ty : Ty) : Option (List Ty × List String) :=
  ty.alternatives.findSome? fun
    | .function params _ _ generics => some (params, generics)
    | _ => none

/-- The name of a nominal class. -/
def className? : Ty → Option String
  | .named name _ _ => some name
  | _ => none

mutual

/-- Whether `test` holds of the type itself or of a type anywhere inside it. -/
def anyNode (test : Ty → Bool) : Ty → Bool
  | .function params ret variadic generics =>
    test (.function params ret variadic generics) || anyNodeList test params || anyNode test ret
  | .named name supers members =>
    test (.named name supers members) || anyNodeMembers test members
  | .record supers members => test (.record supers members) || anyNodeMembers test members
  | .union alts => test (.union alts) || anyNodeList test alts
  | .aliasRef name args => test (.aliasRef name args) || anyNodeList test args
  | .array element => test (.array element) || anyNode test element
  | .tuple elements => test (.tuple elements) || anyNodeList test elements
  | ty => test ty
termination_by structural ty => ty

/-- `anyNode` over a list of types. -/
def anyNodeList (test : Ty → Bool) : List Ty → Bool
  | [] => false
  | ty :: rest => anyNode test ty || anyNodeList test rest
termination_by structural tys => tys

/-- `anyNode` over the types of members. -/
def anyNodeMembers (test : Ty → Bool) : List (Member Ty) → Bool
  | [] => false
  | ⟨_, ty, _, _, _⟩ :: rest => anyNode test ty || anyNodeMembers test rest
termination_by structural members => members

end

/-- Whether a reference that is not yet looked up occurs anywhere in the type. -/
def containsAlias (ty : Ty) : Bool :=
  ty.anyNode fun
    | .aliasRef _ _ => true
    | _ => false

/-- Whether a type parameter occurs anywhere in the type. -/
def containsGeneric (ty : Ty) : Bool :=
  ty.anyNode fun
    | .generic _ => true
    | _ => false

end Ty

end LuaTyping
