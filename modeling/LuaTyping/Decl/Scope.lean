import LuaTyping.Decl.Entry
import LuaTyping.Guard.Limits

/-!
# Scopes

The scopes of a file form a tree, and each declaration stands in one of them. A name is looked up
from a scope outward; the innermost scope with a visible binding decides, and of several there the
one that became visible last.

A binding that starts after the reference is visible only if it is hoisted. Hoisted bindings count
with their start like all others, so such a binding shadows one before the reference.
-/

set_option autoImplicit false

namespace LuaTyping

/-- What opens a scope. -/
inductive ScopeKind where
  | file
  | function
  | block
  | loop
deriving DecidableEq, Inhabited, Repr

/-- One scope of a file. -/
structure Scope where
  kind : ScopeKind
  parent : Option Nat
  span : Span
  /-- The declarations in the order of the walk that found them. -/
  decls : Array Nat
  children : Array Nat
  /-- The function expression that a function scope belongs to. -/
  function : NodeRef
deriving Inhabited

/-- The declarations of a file and the scopes they stand in. -/
structure ScopeTable where
  entries : Array Entry
  scopes : Array Scope
deriving Inhabited

namespace ScopeTable

def empty : ScopeTable := ⟨#[], #[]⟩

def entry? (table : ScopeTable) (decl : Nat) : Option Entry := table.entries[decl]?

def scope? (table : ScopeTable) (scope : Option Nat) : Option Scope :=
  scope.bind fun index => table.scopes[index]?

/-- Opens a scope inside `parent` and says which number it has. -/
def openScope (table : ScopeTable) (parent : Option Nat) (kind : ScopeKind) (span : Span)
    (function : NodeRef) : Nat × ScopeTable :=
  let index := table.scopes.size
  let scopes := table.scopes.push
    { kind, parent, span, decls := #[], children := #[], function }
  let scopes := match parent with
    | some outer =>
      scopes.modify outer fun scope => { scope with children := scope.children.push index }
    | none => scopes
  (index, { table with scopes })

/-- Adds a declaration, and its number to the scope it names. -/
def declare (table : ScopeTable) (entry : Entry) : ScopeTable :=
  let scopes := match entry.scope with
    | some home =>
      table.scopes.modify home fun scope => { scope with decls := scope.decls.push entry.id }
    | none => table.scopes
  ⟨table.entries.push entry, scopes⟩

/-- The declarations of a scope that bind `name` and are visible at `pos`. -/
def visibleIn (table : ScopeTable) (scope : Scope) (name : String) (pos : Nat) : List Nat :=
  scope.decls.toList.filter fun decl =>
    match table.entry? decl with
    | some entry => entry.binds name && entry.isVisibleAt pos
    | none => false

/-- The offset from which a declaration is visible. -/
def visibleFrom (table : ScopeTable) (decl : Nat) : Nat :=
  ((table.entry? decl).map Entry.visibleFrom).getD 0

/-- Of two declarations the one visible from further on, and of two visible from the same offset
the later one. -/
def later (table : ScopeTable) (a b : Nat) : Nat :=
  let from_a := table.visibleFrom a
  let from_b := table.visibleFrom b
  if from_a < from_b || (from_a == from_b && a ≤ b) then b else a

/-- The declaration of a list that became visible last. -/
def latest? (table : ScopeTable) : List Nat → Option Nat
  | [] => none
  | decl :: rest => some (rest.foldl table.later decl)

/-- Looks a name up through at most `steps` scopes. -/
def lookupWithin (table : ScopeTable) (name : String) (pos : Nat) :
    (steps : Nat) → Option Nat → Option Nat
  | 0, _ => none
  | steps + 1, scope =>
    match table.scope? scope with
    | none => none
    | some found =>
      match table.latest? (table.visibleIn found name pos) with
      | some decl => some decl
      | none => table.lookupWithin name pos steps found.parent

/-- The binding of `name` that a reference at `pos` in `scope` sees. -/
def lookup (table : ScopeTable) (name : String) (pos : Nat) (scope : Option Nat) : Option Nat :=
  table.lookupWithin name pos (Limits.treeWalk + 1) scope

/-- Goes from a scope into the first child whose span holds `pos`, at most `steps` times. -/
def descend (table : ScopeTable) (pos : Nat) : (steps : Nat) → Nat → Nat
  | 0, current => current
  | steps + 1, current =>
    match table.scopes[current]? with
    | none => current
    | some scope =>
      let within (child : Nat) : Bool :=
        match table.scopes[child]? with
        | some inner => inner.span.contains pos
        | none => false
      match scope.children.find? within with
      | some child => table.descend pos steps child
      | none => current

/-- The innermost scope that holds `pos`. A position outside the file belongs to the outermost
scope. -/
def scopeAt (table : ScopeTable) (pos : Nat) : Option Nat :=
  match table.scopes[0]? with
  | none => none
  | some root =>
    if root.span.contains pos then some (table.descend pos table.scopes.size 0) else some 0

/-- The function expression of the innermost function scope, through at most `steps` scopes. -/
def functionWithin (table : ScopeTable) : (steps : Nat) → Option Nat → Option NodeRef
  | 0, _ => none
  | steps + 1, scope =>
    match table.scope? scope with
    | none => none
    | some found =>
      if found.kind = .function then some found.function
      else table.functionWithin steps found.parent

/-- The function expression of the innermost function scope around `scope`. A scope has a smaller
number than those inside it, so as many steps as there are scopes suffice. -/
def functionOf (table : ScopeTable) (scope : Option Nat) : Option NodeRef :=
  table.functionWithin table.scopes.size scope

end ScopeTable

end LuaTyping
