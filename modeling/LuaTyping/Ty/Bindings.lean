import LuaTyping.Ty.Replace

/-!
# Bindings of type parameters

Bindings give types to type parameters. They are kept in ascending order of the names, each name
once, so two ways of arriving at the same bindings give the same list.
-/

set_option autoImplicit false

namespace LuaTyping

/-- Types for type parameters. -/
structure Bindings where
  entries : List (String × Ty)
deriving Inhabited

/-- What identifies bindings in a stored result: the names with the outlines of their types. -/
abbrev Fingerprint := List (String × Outline)

namespace Bindings

def empty : Bindings := ⟨[]⟩

def isEmpty (bindings : Bindings) : Bool := bindings.entries.isEmpty

def size (bindings : Bindings) : Nat := bindings.entries.length

/-- The type bound to `name`. -/
def get? (bindings : Bindings) (name : String) : Option Ty := bindings.entries.lookup name

def contains (bindings : Bindings) (name : String) : Bool := (bindings.get? name).isSome

/-- Puts a binding in its place in an ascending list, over one of the same name. -/
def place (name : String) (ty : Ty) : List (String × Ty) → List (String × Ty)
  | [] => [(name, ty)]
  | (other, bound) :: rest =>
    if other == name then (name, ty) :: rest
    else if name < other then (name, ty) :: (other, bound) :: rest
    else (other, bound) :: place name ty rest

/-- Binds `name` to `ty`, whatever it was bound to before. -/
def insert (bindings : Bindings) (name : String) (ty : Ty) : Bindings :=
  ⟨place name ty bindings.entries⟩

/-- Adds bindings in order, later ones over earlier ones. -/
def insertAll (bindings : Bindings) (pairs : List (String × Ty)) : Bindings :=
  pairs.foldl (fun bindings pair => bindings.insert pair.1 pair.2) bindings

def ofList (pairs : List (String × Ty)) : Bindings := empty.insertAll pairs

/-- Adds the bindings of `other`, which win over those already there. -/
def extend (bindings other : Bindings) : Bindings := bindings.insertAll other.entries

/-- Binds parameters to arguments by position. A parameter without an argument is unknown, and an
argument without a parameter is dropped. -/
def ofArgs (params : List String) (args : List Ty) : Bindings :=
  let padded := args ++ List.replicate (params.length - args.length) Ty.unknown
  ofList (params.zip padded)

/-- Whether the same names are bound to equal types. -/
def eqv (a b : Bindings) : Bool :=
  a.entries.map Prod.fst == b.entries.map Prod.fst
    && Ty.eqvList (a.entries.map Prod.snd) (b.entries.map Prod.snd)

/-- The fingerprint of the bindings. -/
def fingerprint (bindings : Bindings) : Fingerprint :=
  bindings.entries.map fun (name, ty) => (name, ty.outline)

end Bindings

/-- The type with its bound parameters replaced, all at once: what is put in is not looked at
again. -/
def Ty.instantiate (bindings : Bindings) (ty : Ty) : Ty :=
  if bindings.isEmpty then ty
  else
    ty.replace fun
      | .generic name => bindings.get? name
      | _ => none

end LuaTyping
