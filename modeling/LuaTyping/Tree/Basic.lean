import LuaTyping.Guard.Limits
import LuaTyping.Tree.Annotation
import LuaTyping.Tree.Node
import Std.Data.HashMap

/-!
# Syntax trees

The tree of one file: its nodes by number, the documentation comments attached to them and the
root. Parent links and spans are stored, not derived, and a tree from outside may hold any; walks
along them are therefore bounded.
-/

set_option autoImplicit false

namespace LuaTyping

/-- The syntax tree of one file. -/
structure Tree where
  nodes : Array Node
  docs : Std.HashMap Nat DocComment
  root : NodeRef
deriving Inhabited

namespace Tree

def empty : Tree := ⟨#[], ∅, none⟩

/-- The number of nodes. -/
def size (tree : Tree) : Nat := tree.nodes.size

/-- The node a reference leads to. -/
def node? (tree : Tree) (ref : NodeRef) : Option Node :=
  ref.bind fun index => tree.nodes[index]?

def form? (tree : Tree) (ref : NodeRef) : Option Form :=
  (tree.node? ref).map Node.form

/-- The span of a node, empty at the start of the file where there is none. -/
def span (tree : Tree) (ref : NodeRef) : Span :=
  ((tree.node? ref).map Node.span).getD ⟨0, 0⟩

def parent (tree : Tree) (ref : NodeRef) : NodeRef :=
  (tree.node? ref).bind Node.parent

def children (tree : Tree) (ref : NodeRef) : List Nat :=
  ((tree.form? ref).map Form.children).getD []

/-- The text of a name node. -/
def nameText? (tree : Tree) (ref : NodeRef) : Option String :=
  (tree.form? ref).bind Form.nameText?

/-- The comment attached to a node. -/
def doc? (tree : Tree) (ref : NodeRef) : Option DocComment :=
  ref.bind fun index => tree.docs[index]?

/-- Adds a node, and says which number it has. -/
def add (tree : Tree) (node : Node) : Nat × Tree :=
  (tree.nodes.size, { tree with nodes := tree.nodes.push node })

def setRoot (tree : Tree) (root : NodeRef) : Tree := { tree with root }

/-- Makes `parent` the parent of a node. -/
def setParent (tree : Tree) (parent child : Nat) : Tree :=
  { tree with nodes := tree.nodes.modify child fun node => { node with parent := some parent } }

/-- Attaches a comment to a node, after one that is already there. -/
def attachDoc (tree : Tree) (ref : NodeRef) (doc : DocComment) : Tree :=
  match ref with
  | none => tree
  | some index =>
    let joined := match tree.docs[index]? with
      | some earlier => earlier.append doc
      | none => doc
    { tree with docs := tree.docs.insert index joined }

/-- At most `steps` ancestors, starting with `ref` itself and going outward. -/
def chainFrom (tree : Tree) : (steps : Nat) → NodeRef → List Nat
  | 0, _ => []
  | _, none => []
  | steps + 1, some index => index :: tree.chainFrom steps (tree.parent (some index))

/-- The ancestors of a node from its parent outward. -/
def ancestors (tree : Tree) (ref : NodeRef) : List Nat :=
  tree.chainFrom Limits.treeWalk (tree.parent ref)

/-- The innermost function around a node. -/
def enclosingFunction? (tree : Tree) (ref : NodeRef) : Option Nat :=
  (tree.ancestors ref).find? fun index => ((tree.form? (some index)).map Form.isClosure).getD false

/-- Goes from a node into the first child whose span holds `pos`, at most `steps` times. -/
def descend (tree : Tree) (pos : Nat) : (steps : Nat) → NodeRef → NodeRef
  | 0, current => current
  | steps + 1, current =>
    match (tree.children current).find? fun child => (tree.span (some child)).contains pos with
    | some child => tree.descend pos steps (some child)
    | none => current

/-- The innermost node whose span holds `pos`. -/
def nodeAt (tree : Tree) (pos : Nat) : NodeRef :=
  if (tree.span tree.root).contains pos then tree.descend pos Limits.treeWalk tree.root else none

end Tree

end LuaTyping
