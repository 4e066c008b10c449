import LuaTyping.Visibility

/-!
# Annotations

Documentation comments in structured form: the tags of a comment and the type expressions in them.
What could not be read in a type expression is kept as a missing part, so that the rest of the
comment stays usable.
-/

set_option autoImplicit false

namespace LuaTyping

/-- A type expression in an annotation. -/
inductive TypeExpr where
  /-- A name with arguments. Primitive types are names too. -/
  | name (name : String) (args : List TypeExpr)
  | array (element : TypeExpr)
  | union (alternatives : List TypeExpr)
  | function (params : List (String × TypeExpr)) (returns : List TypeExpr) (variadic : Bool)
  | table (fields : List (String × TypeExpr))
  | literal (text : String)
  | tuple (elements : List TypeExpr)
  /-- A part that could not be read. -/
  | missing
deriving Inhabited

/-- A type parameter, with the bound it was declared with. -/
structure TypeParam where
  name : String
  bound : Option TypeExpr
deriving Inhabited

/-- One tag of a documentation comment. -/
inductive Tag where
  | classTag (name : String) (supers : List String)
  | fieldTag (visibility : Visibility) (name : String) (ty : TypeExpr)
  | paramTag (name : String) (ty : TypeExpr)
  | returnTag (tys : List TypeExpr)
  | aliasTag (name : String) (generics : List TypeParam) (ty : TypeExpr)
  | genericTag (params : List TypeParam)
  | typeTag (ty : TypeExpr)
  | deprecatedTag
  | overloadTag (ty : TypeExpr)
deriving Inhabited

/-- The tags of one documentation comment. -/
structure DocComment where
  tags : List Tag
deriving Inhabited

namespace DocComment

def empty : DocComment := ⟨[]⟩

/-- A comment continued by another one. -/
def append (first second : DocComment) : DocComment := ⟨first.tags ++ second.tags⟩

/-- The first class tag, as the name and supertypes it declares. -/
def classTag? (doc : DocComment) : Option (String × List String) :=
  doc.tags.findSome? fun
    | .classTag name supers => some (name, supers)
    | _ => none

/-- The type of the first type tag. -/
def typeTag? (doc : DocComment) : Option TypeExpr :=
  doc.tags.findSome? fun
    | .typeTag ty => some ty
    | _ => none

/-- The type the comment gives to a parameter. -/
def param? (doc : DocComment) (name : String) : Option TypeExpr :=
  doc.tags.findSome? fun
    | .paramTag other ty => if other == name then some ty else none
    | _ => none

/-- The returned types of all return tags, in order. -/
def returns (doc : DocComment) : List TypeExpr :=
  doc.tags.flatMap fun
    | .returnTag tys => tys
    | _ => []

/-- The type parameters of all generic tags, in order. -/
def generics (doc : DocComment) : List TypeParam :=
  doc.tags.flatMap fun
    | .genericTag params => params
    | _ => []

/-- The names of the type parameters. -/
def genericNames (doc : DocComment) : List String := doc.generics.map TypeParam.name

/-- The types of all overload tags, in order. -/
def overloads (doc : DocComment) : List TypeExpr :=
  doc.tags.filterMap fun
    | .overloadTag ty => some ty
    | _ => none

def isDeprecated (doc : DocComment) : Bool :=
  doc.tags.any fun
    | .deprecatedTag => true
    | _ => false

end DocComment

end LuaTyping
