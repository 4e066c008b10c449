import LuaTyping.Tree.Node
import LuaTyping.Ty.Basic

/-!
# Declarations

A declaration is recorded as it stands in the source: what kind it is, which type its annotation
gives it, and which expression it is initialised with. Nothing is inferred at this point. A
declaration is known by its number in its file, and across files by the file and the number.
-/

set_option autoImplicit false

namespace LuaTyping

/-- A declaration of a project. -/
structure DeclKey where
  file : FileId
  decl : Nat
deriving DecidableEq, Hashable, Inhabited, Repr

namespace DeclKey

/-- A declaration is written as its file and number, as in `file#1:3`. -/
def render (key : DeclKey) : String :=
  key.file.render ++ ":" ++ toString key.decl

/-- By file, and within a file by number. -/
def le (a b : DeclKey) : Bool :=
  a.file.number < b.file.number || (a.file.number == b.file.number && a.decl ≤ b.decl)

end DeclKey

/-- What is declared. -/
inductive DeclKind where
  | classDecl
  | aliasDecl
  /-- A documented field, a field of a table constructor, or an assignment to a field. -/
  | field
  /-- A local function, or a function defined on a table or class. -/
  | function
  /-- A local variable or the variable of a loop. -/
  | localVar
  | parameter
  /-- An assignment or function statement whose name is not local. -/
  | global
deriving DecidableEq, Inhabited, Repr

namespace DeclKind

/-- The kinds that are bound in scopes. -/
def isLexical : DeclKind → Bool
  | .localVar | .parameter | .function => true
  | _ => false

/-- The kinds that may belong to a class or table. -/
def isMember : DeclKind → Bool
  | .field | .function => true
  | _ => false

end DeclKind

/-- What a member belongs to, as far as the text alone tells. -/
inductive Owner where
  /-- A class, through the variable that holds its table. -/
  | ofClass (name : String)
  /-- A local table of the same file, by the number of its declaration. -/
  | ofTable (decl : Nat)
  /-- A global table, by its name. -/
  | ofGlobal (name : String)
deriving DecidableEq, Hashable, Inhabited, Repr

/-- What an initialiser looks like. -/
inductive InitShape where
  | function (params : Nat) (variadic : Bool)
  | table
  | literal
  | call
  | name (text : String)
  /-- The variable of a numeric loop. -/
  | numericFor
  /-- A variable of a generic loop. -/
  | iterator
  | other
deriving DecidableEq, Inhabited, Repr

namespace InitShape

def isFunction : InitShape → Bool
  | .function _ _ => true
  | _ => false

end InitShape

/-- Where a declaration takes its value from. -/
structure Initializer where
  expr : NodeRef
  /-- Which of the values of the expression it is. -/
  valueIndex : Nat
  shape : InitShape
deriving DecidableEq, Inhabited, Repr

/-- How much a declaration of a member counts. Where a member is declared in several ways, only the
declarations that count most make up its type. -/
structure Worth where
  points : Nat
deriving DecidableEq, Inhabited, Repr

namespace Worth

/-- A documented field. -/
def documented : Worth := ⟨1000⟩

/-- A function statement on a class or table. -/
def method : Worth := ⟨900⟩

/-- A field of the table constructor that the owner is bound to. -/
def tableField : Worth := ⟨800⟩

/-- An assignment to a field. -/
def assignment : Worth := ⟨0⟩

end Worth

/-- A declaration as it stands in the source. -/
structure Entry where
  /-- The number of the declaration in its file. -/
  id : Nat
  kind : DeclKind
  name : String
  /-- The type given by an annotation, with names not yet looked up. -/
  declared : Option Ty
  overloads : List Ty
  initializer : Option Initializer
  visibility : Visibility
  deprecated : Bool
  /-- The scope in which the declaration stands. -/
  scope : Option Nat
  owner : Option Owner
  /-- The node that declares: a name, field, statement or function. -/
  node : NodeRef
  span : Span
  /-- The offset from which references see the declaration. -/
  visibleFrom : Nat
  /-- Whether references see it anywhere in its scope. -/
  hoisted : Bool
  worth : Worth
  /-- The type parameters in scope for the declared type. -/
  generics : List String
  /-- The direct supertypes of a class. -/
  supers : List String
  /-- The class whose table the variable holds. -/
  className : Option String
deriving Inhabited

namespace Entry

/-- A bare declaration, visible from the end of its span. -/
def plain (id : Nat) (kind : DeclKind) (name : String) (scope : Option Nat) (node : NodeRef)
    (span : Span) : Entry :=
  { id, kind, name, declared := none, overloads := [], initializer := none,
    visibility := .publicAccess, deprecated := false, scope, owner := none, node, span,
    visibleFrom := span.stop, hoisted := false, worth := .assignment, generics := [],
    supers := [], className := none }

/-- Whether the declaration belongs to a class or table. -/
def isMember (entry : Entry) : Bool := entry.kind.isMember && entry.owner.isSome

/-- The owner of a declaration that may belong to one. -/
def memberOwner? (entry : Entry) : Option Owner :=
  if entry.kind.isMember then entry.owner else none

/-- The name of a declaration of the given kind. -/
def nameIf (kind : DeclKind) (entry : Entry) : Option String :=
  if entry.kind = kind then some entry.name else none

/-- Whether a reference at `pos` can see the declaration. -/
def isVisibleAt (entry : Entry) (pos : Nat) : Bool := entry.hoisted || entry.visibleFrom ≤ pos

/-- Whether the declaration binds `name` in its scope. -/
def binds (entry : Entry) (name : String) : Bool :=
  entry.kind.isLexical && !entry.isMember && entry.name == name

end Entry

/-- What is recorded of a function expression. -/
structure FunctionInfo where
  /-- The documented result. -/
  returns : Option Ty
  generics : List String
  /-- The declarations of the parameters in order, an implicit `self` among them. -/
  params : List Nat
  variadic : Bool
  /-- What `self` belongs to. -/
  methodOf : Option Owner
  /-- The return statements of this function and not of one inside it, in order. -/
  returnStmts : Array Nat
  /-- Whether control can reach the end of the body. -/
  fallsThrough : Bool
deriving Inhabited

end LuaTyping
