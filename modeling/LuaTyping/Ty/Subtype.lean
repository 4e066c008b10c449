import LuaTyping.Guard.Basic
import LuaTyping.Ty.Ancestry
import LuaTyping.Ty.Equality
import LuaTyping.Ty.Outline

/-!
# Subtyping

A type is below another when each of its values is acceptable where the other is expected:

* the unknown type is above everything and below only itself;
* a union is below a type when all of its alternatives are, and above one when some alternative is;
* a string literal is a string, and arrays and tuples are tables;
* arrays and tuples are compared element by element;
* a named class is below the classes it inherits from, and a class is below a record when it has
  every member of the record at a type below the record's;
* a function may replace another when it accepts what the other's callers pass and returns what
  they expect.

Members of named classes are looked up by name, so comparing two types may need types that are not
parts of them. A guard keeps that finite: a pair that is already being compared is taken to hold,
and beyond the guard's limits nothing holds. Pairs are told apart by their outlines.

The classes above a class are read off the declarations, which a comparison does not change. The
type of a member may have to be inferred first, and inferring it may change what is found the next
time; hence the look-up of members is a step of its own, and the comparison runs in any monad.
-/

set_option autoImplicit false

namespace LuaTyping

/-- What a comparison needs to know about named classes: their supertypes, which stay the same while
types are compared, and the types of their members, which may be computed when asked for. -/
structure Resolver (m : Type → Type) where
  /-- The direct supertypes of a class, in order of declaration. -/
  supertypes : String → List String
  /-- The type of a member of a class or of the classes above it. -/
  lookupMember : String → String → m (Option Ty)

/-- A resolver that knows of no class. -/
def Resolver.blind {m : Type → Type} [Pure m] : Resolver m :=
  ⟨fun _ => [], fun _ _ => pure none⟩

namespace Subtyping

/-- What identifies a comparison in progress. -/
abbrev Key := Outline × Outline

/-- A comparison in `m` under a guard. -/
abbrev CompareM (m : Type → Type) := StateT (Guard Key) m

/-- How types are compared. -/
structure Rules (m : Type → Type) where
  resolver : Resolver m
  /-- Whether `nil` is a type like any other; otherwise it is below every known type. -/
  nilStrict : Bool

variable {m : Type → Type} [Monad m]

/-- Runs `compared` under the guard. -/
def guarded (key : Key) (compared : CompareM m Bool) : CompareM m Bool := do
  match (← get).enter key with
  | (.entered, inside) =>
    set inside
    let answer ← compared
    modify fun guard => (guard.leave key).2
    pure answer
  | (.cycle, denied) =>
    set denied
    pure true
  | (_, denied) =>
    set denied
    pure false

/-- Whether the class `name` with the given direct supertypes inherits from `target`. -/
def inherits (resolver : Resolver m) (name : String) (supers : List String) (target : String) :
    Bool :=
  meets resolver.supertypes .depthFirst target Limits.supertypeChain [name]
    (supers ++ resolver.supertypes name).reverse

/-- The type of a member of a class, given as its name if it has one and its own members. -/
def memberOf (resolver : Resolver m) (className : Option String) (members : List (Member Ty))
    (member : String) : m (Option Ty) :=
  match findMember? members member, className with
  | some found, _ => pure (some found.ty)
  | none, some name => resolver.lookupMember name member
  | none, none => pure none

section Levels

variable (rules : Rules m) (deeper : Ty → Ty → CompareM m Bool)

/-- Whether a class has every member in `expected` at a type below the expected one. -/
def hasMembers (className : Option String) (members expected : List (Member Ty)) :
    CompareM m Bool :=
  expected.allM fun wanted => do
    match ← (memberOf rules.resolver className members wanted.name : m (Option Ty)) with
    | some actual => deeper actual wanted.ty
    | none => pure false

/-- Whether a function with the first parameters accepts what callers of one with the second pass:
each shared parameter, and `nil` for those the callers leave out. A variadic target leaves nothing
out. -/
def acceptsParams (params expected : List Ty) (variadic : Bool) : CompareM m Bool := do
  if ← (expected.zip params).allM fun pair => deeper pair.1 pair.2 then
    if variadic then pure true
    else (params.drop expected.length).allM fun param => deeper .nil param
  else pure false

/-- Compares two types that are neither equal nor unions, by their outermost shapes. -/
def compareShapes : Ty → Ty → CompareM m Bool
  | .literal _, .string => pure true
  | .named name supers _, .named name' _ _ =>
    pure (name == name' || inherits rules.resolver name supers name')
  | .record _ _, .named _ _ _ => pure false
  | .named name _ members, .record _ expected =>
    hasMembers rules deeper (some name) members expected
  | .record _ members, .record _ expected => hasMembers rules deeper none members expected
  | .array _, .record _ expected => pure expected.isEmpty
  | .tuple _, .record _ expected => pure expected.isEmpty
  | .array element, .array element' => deeper element element'
  | .tuple elements, .array element' => elements.allM fun element => deeper element element'
  | .tuple elements, .tuple elements' =>
    if elements.length == elements'.length then
      (elements.zip elements').allM fun pair => deeper pair.1 pair.2
    else pure false
  | .function params ret _ _, .function params' ret' variadic' _ => do
    if ← acceptsParams deeper params params' variadic' then deeper ret ret' else pure false
  | _, _ => pure false

mutual

/-- Whether `a`, which is no union, is below the given type. -/
def belowSimple (a : Ty) : Ty → CompareM m Bool
  | .unknown => pure true
  | .union alts =>
    if a.isUnknown then pure false
    else if a.isNil && !rules.nilStrict then pure true
    else belowAny a alts
  | b =>
    if a.eqv b then pure true
    else if a.isUnknown then pure false
    else if a.isNil && !rules.nilStrict then pure true
    else guarded (a.outline, b.outline) (compareShapes rules deeper a b)
termination_by structural b => b

/-- Whether `a`, which is no union, is below one of the given types. -/
def belowAny (a : Ty) : List Ty → CompareM m Bool
  | [] => pure false
  | b :: rest => do if ← belowSimple a b then pure true else belowAny a rest
termination_by structural bs => bs

end

mutual

/-- Whether the first type is below the second. -/
def below : Ty → Ty → CompareM m Bool
  | .union alts, b =>
    if Ty.eqv (.union alts) b || b.isUnknown then pure true else belowAll alts b
  | a, b => belowSimple rules deeper a b
termination_by structural a => a

/-- Whether all of the given types are below `b`. -/
def belowAll : List Ty → Ty → CompareM m Bool
  | [], _ => pure true
  | a :: rest, b => do if ← below a b then belowAll rest b else pure false
termination_by structural as => as

end

end Levels

/-- The comparison with `levels` of nesting. Each level is one entry of the guard, so with more
levels than the guard admits the last is never reached. -/
def compareWithin (rules : Rules m) : (levels : Nat) → Ty → Ty → CompareM m Bool
  | 0 => fun _ _ => pure false
  | levels + 1 => below rules (compareWithin rules levels)

/-- Whether the first type is below the second, under the guard in the state. -/
def compare (rules : Rules m) (a b : Ty) : CompareM m Bool := do
  compareWithin rules ((← get).maxDepth + 1) a b

/-- The guard a comparison starts from. -/
def freshGuard : Guard Key := Guard.ofProfile .subtypeCheck

/-- Whether the first type is below the second, starting from a fresh guard. -/
def decideFresh (rules : Rules m) (a b : Ty) : m Bool :=
  (compare rules a b).run' freshGuard

end Subtyping

/-- Whether the first type is below the second when nothing is known about named classes. -/
def Ty.isSubtypeOf (a b : Ty) : Bool :=
  Id.run (Subtyping.decideFresh ⟨Resolver.blind, true⟩ a b)

end LuaTyping
