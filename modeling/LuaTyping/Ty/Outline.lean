import LuaTyping.Ty.Basic

/-!
# Outlines

An outline is what remains of a type when the inside of classes is forgotten: a named class keeps
its name and a record only the number of its members. A union keeps its alternatives without their
order. Everything else is kept. Equal types have equal outlines, and finding out whether two
outlines are equal does not depend on how large the classes are, so computations in progress and
stored results are keyed by outlines.

An outline is a tree of labels. The alternatives of a union are sorted, which makes the tree the
same for every order of them.
-/

set_option autoImplicit false

namespace LuaTyping

/-- What stands at one node of an outline. -/
inductive Label where
  | unknown
  | nil
  | boolean
  | number
  | string
  | array
  | tuple
  | union
  | literal (text : String)
  | generic (name : String)
  | named (name : String)
  | aliasRef (name : String)
  | record (size : Nat)
  | function (variadic : Bool) (generics : List String)
deriving DecidableEq, Inhabited, Repr

namespace Label

/-- The place of the label's kind among the kinds. -/
def rank : Label → Nat
  | .unknown => 0
  | .nil => 1
  | .boolean => 2
  | .number => 3
  | .string => 4
  | .array => 5
  | .tuple => 6
  | .union => 7
  | .literal _ => 8
  | .generic _ => 9
  | .named _ => 10
  | .aliasRef _ => 11
  | .record _ => 12
  | .function false _ => 13
  | .function true _ => 14

/-- The names a label carries. -/
def texts : Label → List String
  | .literal text => [text]
  | .generic name | .named name | .aliasRef name => [name]
  | .function _ generics => generics
  | _ => []

/-- The number a label carries. -/
def size : Label → Nat
  | .record size => size
  | _ => 0

/-- Lists of names in the order of their first difference, a shorter list first. -/
def compareTexts : List String → List String → Ordering
  | [], [] => .eq
  | [], _ :: _ => .lt
  | _ :: _, [] => .gt
  | a :: as, b :: bs => (compare a b).then (compareTexts as bs)

/-- Labels by kind, then by number, then by names; equal only if the same. -/
def order (a b : Label) : Ordering :=
  ((compare a.rank b.rank).then (compare a.size b.size)).then (compareTexts a.texts b.texts)

end Label

/-- A tree of labels. -/
inductive Outline where
  | node (label : Label) (parts : List Outline)
deriving Inhabited

namespace Outline

mutual

/-- Outlines by label, then part by part. -/
def order : Outline → Outline → Ordering
  | .node label parts, .node label' parts' => (label.order label').then (orderParts parts parts')
termination_by structural a => a

/-- Lists of outlines in the order of their first difference, a shorter list first. -/
def orderParts : List Outline → List Outline → Ordering
  | [], [] => .eq
  | [], _ :: _ => .lt
  | _ :: _, [] => .gt
  | a :: as, b :: bs => (order a b).then (orderParts as bs)
termination_by structural as => as

end

mutual

/-- Whether two outlines are the same tree. -/
def same : Outline → Outline → Bool
  | .node label parts, .node label' parts' => label == label' && sameParts parts parts'
termination_by structural a => a

/-- Whether two lists of outlines are the same. -/
def sameParts : List Outline → List Outline → Bool
  | [], [] => true
  | a :: as, b :: bs => same a b && sameParts as bs
  | _, _ => false
termination_by structural as => as

end

instance : BEq Outline := ⟨same⟩

/-- The parts of a union, brought into order. -/
def sortParts (parts : List Outline) : List Outline :=
  parts.mergeSort fun a b => (order a b).isLE

end Outline

namespace Ty

mutual

/-- The outline of a type. -/
def outline : Ty → Outline
  | .unknown => .node .unknown []
  | .nil => .node .nil []
  | .boolean => .node .boolean []
  | .number => .node .number []
  | .string => .node .string []
  | .literal text => .node (.literal text) []
  | .function params ret variadic generics =>
    .node (.function variadic generics) (outline ret :: outlines params)
  | .named name _ _ => .node (.named name) []
  | .record _ members => .node (.record members.length) []
  | .union alts => .node .union (Outline.sortParts (outlines alts))
  | .generic name => .node (.generic name) []
  | .aliasRef name args => .node (.aliasRef name) (outlines args)
  | .array element => .node .array [outline element]
  | .tuple elements => .node .tuple (outlines elements)
termination_by structural ty => ty

/-- The outlines of a list of types. -/
def outlines : List Ty → List Outline
  | [] => []
  | ty :: rest => outline ty :: outlines rest
termination_by structural tys => tys

end

end Ty

end LuaTyping
