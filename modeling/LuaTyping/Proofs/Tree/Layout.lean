import LuaTyping.Tree.Builder
import Mathlib.Logic.Relation

/-!
# Adding nodes to a tree in the making

What is known of a tree while it is built: where its nodes start and end, which of them are part of
no other one yet, and that those follow each other in the order of the text. Adding a node around
some of them keeps this, and the names that the span of the node holds are then under it.

The blocks of an `if` or `repeat` statement are an exception. They are made when all operands of the
statement are there, so that the span of a block runs on over the parts that come after it.
-/

set_option autoImplicit false

namespace LuaTyping

namespace Tree

/-- The second node is the one that the first is a part of. -/
def PartOf (tree : Tree) (part whole : Nat) : Prop := tree.parent (some part) = some whole

/-- The first node is the second or lies inside it. -/
def Under (tree : Tree) : Nat → Nat → Prop := Relation.ReflTransGen tree.PartOf

/-- The first node lies inside the second. -/
def Inside (tree : Tree) : Nat → Nat → Prop := Relation.TransGen tree.PartOf

/-- The parts of a node name it as the one they are a part of. -/
def Linked (tree : Tree) : Prop := ∀ m, ∀ child ∈ tree.children (some m), tree.PartOf child m

def IsName (tree : Tree) (n : Nat) : Prop := ∃ text, tree.form? (some n) = some (.name text)

/-- The node `n` lies in a part of `whole` that comes after its part `m`. -/
def FollowsIn (tree : Tree) (whole m n : Nat) : Prop :=
  ∃ before after q, tree.children (some whole) = before ++ m :: after ∧ q ∈ after ∧ tree.Under n q

end Tree

/-- The statements whose blocks are made after all of their operands. -/
def Form.isLateWrapping : Form → Bool
  | .ifElse _ _ | .repeatLoop _ _ => true
  | _ => false

/-! ## Adding a node -/

namespace Tree

theorem node?_setParent (tree : Tree) (parent child i : Nat) :
    (tree.setParent parent child).node? (some i)
      = (tree.node? (some i)).map fun node =>
          if i = child then { node with parent := some parent } else node := by
  simp only [node?, setParent, Option.bind_some, Array.getElem?_modify]
  by_cases same : child = i
  · simp [same]
  · simp [same, Ne.symm same]

/-- Making a node the parent of others changes nothing else. -/
theorem node?_foldl_setParent (tree : Tree) (parent : Nat) (children : List Nat) (i : Nat) :
    (children.foldl (fun tree child => tree.setParent parent child) tree).node? (some i)
      = (tree.node? (some i)).map fun node =>
          if i ∈ children then { node with parent := some parent } else node := by
  induction children generalizing tree with
  | nil => simp
  | cons child rest ih =>
    rw [List.foldl_cons, ih, node?_setParent, Option.map_map]
    congr 1
    funext node
    by_cases first : i = child <;> by_cases later : i ∈ rest <;> simp [first, later]

theorem lt_size_of_form? {tree : Tree} {i : Nat} {form : Form}
    (found : tree.form? (some i) = some form) : i < tree.size := by
  refine Nat.lt_of_not_le fun beyond => ?_
  have : tree.nodes[i]? = none := Array.getElem?_eq_none beyond
  simp [form?, node?, this] at found

end Tree

namespace Builder

variable {builder : Builder} {form : Form}

theorem node?_pushNode (bounded : ∀ child ∈ form.children, child < builder.tree.size) (i : Nat) :
    (builder.pushNode form).2.tree.node? (some i)
      = if i = builder.tree.size then
          some ⟨form, ⟨builder.startOf form.children, builder.cursor + 1⟩, none⟩
        else (builder.tree.node? (some i)).map fun node =>
          if i ∈ form.children then { node with parent := some builder.tree.size } else node := by
  have fresh : builder.tree.size ∉ form.children := fun mem => Nat.lt_irrefl _ (bounded _ mem)
  rw [pushNode, Tree.add]
  dsimp only
  rw [Tree.node?_foldl_setParent]
  simp only [Tree.node?, Option.bind_some, Tree.size, Array.getElem?_push] at fresh ⊢
  by_cases last : i = builder.tree.nodes.size
  · simp [last, fresh]
  · simp [last]

theorem form?_pushNode (bounded : ∀ child ∈ form.children, child < builder.tree.size) (i : Nat) :
    (builder.pushNode form).2.tree.form? (some i)
      = if i = builder.tree.size then some form else builder.tree.form? (some i) := by
  rw [Tree.form?, node?_pushNode bounded]
  split
  · rfl
  · rw [Tree.form?, Option.map_map]
    congr 1
    funext node
    by_cases mem : i ∈ form.children <;> simp [mem]

theorem span_pushNode (bounded : ∀ child ∈ form.children, child < builder.tree.size) (i : Nat) :
    (builder.pushNode form).2.tree.span (some i)
      = if i = builder.tree.size then ⟨builder.startOf form.children, builder.cursor + 1⟩
        else builder.tree.span (some i) := by
  rw [Tree.span, node?_pushNode bounded]
  split
  · rfl
  · rw [Tree.span, Option.map_map]
    congr 2
    funext node
    by_cases mem : i ∈ form.children <;> simp [mem]

theorem parent_pushNode (bounded : ∀ child ∈ form.children, child < builder.tree.size) (i : Nat) :
    (builder.pushNode form).2.tree.parent (some i)
      = if i ∈ form.children then some builder.tree.size
        else if i = builder.tree.size then none else builder.tree.parent (some i) := by
  have fresh : builder.tree.size ∉ form.children := fun mem => Nat.lt_irrefl _ (bounded _ mem)
  rw [Tree.parent, node?_pushNode bounded]
  by_cases last : i = builder.tree.size
  · simp [last, fresh]
  · by_cases mem : i ∈ form.children
    · have there : i < builder.tree.nodes.size := bounded i mem
      simp [last, mem, Tree.node?, there]
    · simp [last, mem, Tree.parent]

theorem size_pushNode : (builder.pushNode form).2.tree.size = builder.tree.size + 1 := by
  have kept (tree : Tree) (parent : Nat) (children : List Nat) :
      (children.foldl (fun tree child => tree.setParent parent child) tree).size = tree.size := by
    induction children generalizing tree with
    | nil => rfl
    | cons child rest ih =>
      rw [List.foldl_cons, ih]
      exact Array.size_modify
  rw [pushNode, Tree.add]
  dsimp only
  rw [kept]
  exact Array.size_push _

end Builder

/-- The second tree has the nodes of the first, and more may have become parts of others. -/
structure Tree.Extends (old new : Tree) : Prop where
  form : ∀ i form, old.form? (some i) = some form → new.form? (some i) = some form
  part : ∀ i whole, old.PartOf i whole → new.PartOf i whole

namespace Tree.Extends

variable {old new : Tree} (h : old.Extends new)
include h

theorem under {n m : Nat} (under : old.Under n m) : new.Under n m :=
  Relation.ReflTransGen.mono h.part _ _ under

theorem followsIn {whole m n : Nat} (follows : old.FollowsIn whole m n) :
    new.FollowsIn whole m n := by
  obtain ⟨before, after, q, split, mem, under⟩ := follows
  refine ⟨before, after, q, ?_, mem, h.under under⟩
  cases found : old.form? (some whole) with
  | none => simp [Tree.children, found] at split
  | some form => rwa [Tree.children, h.form whole form found, ← found]

end Tree.Extends

/-! ## What holds of a tree in the making -/

/-- Where the nodes of a tree stand in the text: they are numbered from the leaves up and end in the
order of their numbers, and no node starts before the one it is a part of. -/
structure Tree.Arranged (tree : Tree) : Prop where
  stop : ∀ m < tree.size, (tree.span (some m)).stop = 2 * m + 1
  name : ∀ n, tree.IsName n → (tree.span (some n)).start = 2 * n
  linked : tree.Linked
  listed : ∀ child m, tree.PartOf child m → child ∈ tree.children (some m)
  inner : ∀ m, ∀ child ∈ tree.children (some m),
    child < m ∧ (tree.span (some m)).start ≤ (tree.span (some child)).start
  once : ∀ m, (tree.children (some m)).Nodup
  block : ∀ m stmts, tree.form? (some m) = some (.block stmts) →
    (tree.children (some m)).Pairwise (· < ·)

/-- The spans and links of the nodes made so far. -/
structure Builder.Placed (builder : Builder) : Prop where
  cursor : builder.cursor = 2 * builder.tree.size
  arranged : builder.tree.Arranged

namespace Tree

/-- From the start of each node of the list on, names stand only under it and the ones after it. -/
def Ascending (tree : Tree) : List Nat → Prop
  | [] => True
  | p :: rest =>
    (∀ n, tree.IsName n → (tree.span (some p)).start ≤ 2 * n → ∃ q ∈ p :: rest, tree.Under n q) ∧
      tree.Ascending rest

/-- The nodes of the list are part of no other node, every name is under one of them, and they are
in the order of the text. -/
structure Pending (tree : Tree) (pending : List Nat) : Prop where
  nodup : pending.Nodup
  free : ∀ p ∈ pending, p < tree.size ∧ tree.parent (some p) = none
  cover : ∀ n, tree.IsName n → ∃ q ∈ pending, tree.Under n q
  ascending : tree.Ascending pending

/-- The name `n` is not under the block `m`, but in a later part of the statement around it. -/
def RunsInto (tree : Tree) (m n : Nat) : Prop :=
  ∃ whole form stmts, tree.form? (some m) = some (.block stmts) ∧ tree.PartOf m whole ∧
    tree.form? (some whole) = some form ∧ form.isLateWrapping ∧ tree.FollowsIn whole m n

/-- The block `m` is made but not yet the statement around it. The name `n` lies in a part that
comes after the block: one that is `done` or one still to be done. -/
def RunsOver (tree : Tree) (done todo : List Nat) (m n : Nat) : Prop :=
  (∃ stmts, tree.form? (some m) = some (.block stmts)) ∧
    ∃ before after q, done = before ++ m :: after ∧ q ∈ after ++ todo ∧ tree.Under n q

end Tree

/-- The tree in the middle of a call. Of the operands of the call those in `todo` are as they were,
and the ones before them have been wrapped into the parts in `done`. -/
structure Builder.Layout (builder : Builder) (rest done todo : List Nat) : Prop where
  placed : builder.Placed
  numbered : (rest ++ todo).Pairwise (· < ·)
  pending : builder.tree.Pending (rest ++ done ++ todo)
  held : ∀ m n, builder.tree.IsName n → n ≤ m → m < builder.tree.size →
    (builder.tree.span (some m)).start ≤ 2 * n →
    builder.tree.Under n m ∨ builder.tree.RunsInto m n ∨ builder.tree.RunsOver done todo m n

namespace Tree.Extends

variable {old new : Tree} (h : old.Extends new)
include h

theorem runsInto {m n : Nat} (runs : old.RunsInto m n) : new.RunsInto m n := by
  obtain ⟨whole, form, stmts, block, part, found, late, follows⟩ := runs
  exact ⟨whole, form, stmts, h.form _ _ block, h.part _ _ part, h.form _ _ found, late,
    h.followsIn follows⟩

end Tree.Extends

namespace Builder

variable {builder : Builder} {form : Form} {before args later : List Nat}

/-- The parts of a new node are among the nodes that are part of no other one. -/
theorem extends_pushNode
    (free : ∀ child ∈ form.children,
      child < builder.tree.size ∧ builder.tree.parent (some child) = none) :
    builder.tree.Extends (builder.pushNode form).2.tree where
  form i found_form found := by
    have old : i ≠ builder.tree.size := Nat.ne_of_lt (Tree.lt_size_of_form? found)
    rw [form?_pushNode fun child mem => (free child mem).1, if_neg old, found]
  part i whole part := by
    have taken : i ∉ form.children := fun mem => by
      rw [Tree.PartOf, (free i mem).2] at part
      cases part
    have old : i ≠ builder.tree.size := by
      rintro rfl
      simp [Tree.PartOf, Tree.parent, Tree.node?, Tree.size] at part
    rw [Tree.PartOf, parent_pushNode fun child mem => (free child mem).1, if_neg taken, if_neg old]
    exact part

theorem children_pushNode (bounded : ∀ child ∈ form.children, child < builder.tree.size) (i : Nat) :
    (builder.pushNode form).2.tree.children (some i)
      = if i = builder.tree.size then form.children else builder.tree.children (some i) := by
  rw [Tree.children, form?_pushNode bounded]
  split <;> rfl

/-- A node starts no later than any of its parts. -/
theorem startOf_le (builder : Builder) {children : List Nat} {child : Nat}
    (mem : child ∈ children) :
    builder.startOf children ≤ (builder.tree.span (some child)).start := by
  have listed : (builder.tree.span (some child)).start
      ∈ children.map fun child => (builder.tree.span (some child)).start :=
    List.mem_map.mpr ⟨child, mem, rfl⟩
  rw [startOf]
  cases least : (children.map fun child => (builder.tree.span (some child)).start).min? with
  | none => simp_all
  | some start => exact (List.min?_eq_some_iff.mp least).2 _ listed

theorem Placed.pushNode (placed : builder.Placed)
    (free : ∀ child ∈ form.children,
      child < builder.tree.size ∧ builder.tree.parent (some child) = none)
    (once : form.children.Nodup)
    (block : ∀ stmts, form = .block stmts → form.children.Pairwise (· < ·)) :
    (builder.pushNode form).2.Placed := by
  have bounded : ∀ child ∈ form.children, child < builder.tree.size := fun child mem =>
    (free child mem).1
  have arranged := placed.arranged
  refine ⟨?cursor, ?stop, ?name, ?linked, ?listed, ?inner, ?once, ?block⟩
  case cursor =>
    rw [size_pushNode]
    show builder.cursor + 2 = _
    rw [placed.cursor, Nat.mul_succ]
  case stop =>
    intro m less
    rw [span_pushNode bounded]
    split
    · rename_i last
      rw [last, placed.cursor]
    · rename_i old
      rw [size_pushNode] at less
      exact arranged.stop m (by omega)
  case name =>
    rintro n ⟨text, named⟩
    rw [form?_pushNode bounded] at named
    rw [span_pushNode bounded]
    split
    · rename_i last
      rw [if_pos last] at named
      cases named
      simp [startOf, Form.children, Form.parts, placed.cursor, last]
    · rename_i old
      rw [if_neg old] at named
      exact arranged.name n ⟨text, named⟩
  case linked =>
    intro m child mem
    rw [children_pushNode bounded] at mem
    split at mem
    · rename_i last
      rw [Tree.PartOf, parent_pushNode bounded, if_pos mem, last]
    · exact (extends_pushNode free).part _ _ (arranged.linked m child mem)
  case listed =>
    intro child m part
    rw [Tree.PartOf, parent_pushNode bounded] at part
    rw [children_pushNode bounded]
    split at part
    · rename_i mem
      rwa [if_pos (Option.some.inj part).symm]
    · split at part
      · cases part
      · have mem := arranged.listed child m part
        have old : m ≠ builder.tree.size := by
          rintro rfl
          simp [Tree.children, Tree.form?, Tree.node?, Tree.size] at mem
        rwa [if_neg old]
  case inner =>
    intro m child mem
    rw [children_pushNode bounded] at mem
    split at mem
    · rename_i last
      have less := bounded child mem
      rw [span_pushNode bounded, span_pushNode bounded, if_pos last, if_neg (Nat.ne_of_lt less)]
      exact ⟨last ▸ less, builder.startOf_le mem⟩
    · rename_i old
      obtain ⟨less, start⟩ := arranged.inner m child mem
      have there : m < builder.tree.size := by
        cases found : builder.tree.form? (some m) with
        | none => simp [Tree.children, found] at mem
        | some _ => exact Tree.lt_size_of_form? found
      rw [span_pushNode bounded, span_pushNode bounded, if_neg old, if_neg (by omega)]
      exact ⟨less, start⟩
  case once =>
    intro m
    rw [children_pushNode bounded]
    split
    · exact once
    · exact arranged.once m
  case block =>
    intro m stmts found
    rw [form?_pushNode bounded] at found
    rw [children_pushNode bounded]
    split
    · rename_i last
      rw [if_pos last] at found
      exact block stmts (Option.some.inj found)
    · rename_i old
      rw [if_neg old] at found
      exact arranged.block m stmts found

end Builder

/-! ## The order of the nodes -/

namespace Tree.Ascending

variable {tree : Tree} {xs ys : List Nat}

theorem of_append (h : tree.Ascending (xs ++ ys)) : tree.Ascending ys := by
  induction xs with
  | nil => exact h
  | cons x xs ih => exact ih h.2

theorem exists_under (h : tree.Ascending (xs ++ ys)) {p n : Nat} (mem : p ∈ xs)
    (named : tree.IsName n) (from_p : (tree.span (some p)).start ≤ 2 * n) :
    ∃ q ∈ xs ++ ys, tree.Under n q := by
  induction xs with
  | nil => cases mem
  | cons x xs ih =>
    rcases List.mem_cons.mp mem with rfl | mem
    · exact h.1 n named from_p
    · obtain ⟨q, q_mem, under⟩ := ih h.2 mem
      exact ⟨q, List.mem_cons_of_mem x q_mem, under⟩

/-- A tree with more nodes keeps the order, unless it has more names. -/
theorem mono {new : Tree} (ext : tree.Extends new)
    (spans : ∀ p ∈ xs, new.span (some p) = tree.span (some p))
    (names : ∀ n, new.IsName n → tree.IsName n) (h : tree.Ascending xs) : new.Ascending xs := by
  induction xs with
  | nil => trivial
  | cons x xs ih =>
    refine ⟨fun n named from_x => ?_, ih (fun p mem => spans p (List.mem_cons_of_mem x mem)) h.2⟩
    rw [spans x List.mem_cons_self] at from_x
    obtain ⟨q, mem, under⟩ := h.1 n (names n named) from_x
    exact ⟨q, mem, ext.under under⟩

end Tree.Ascending

namespace Builder

variable {builder : Builder} {form : Form} {before args later : List Nat}

/-- A node starts where one of its parts starts, or else where the builder stands. -/
theorem startOf_cases (builder : Builder) (children : List Nat) :
    builder.startOf children = builder.cursor ∨
      ∃ child ∈ children, builder.startOf children = (builder.tree.span (some child)).start := by
  rw [startOf]
  cases least : (children.map fun child => (builder.tree.span (some child)).start).min? with
  | none => exact .inl rfl
  | some start =>
    obtain ⟨child, mem, same⟩ := List.mem_map.mp (List.min?_mem least)
    exact .inr ⟨child, mem, same.symm⟩

theorem isName_pushNode (bounded : ∀ child ∈ form.children, child < builder.tree.size) {n : Nat}
    (named : (builder.pushNode form).2.tree.IsName n) :
    builder.tree.IsName n ∨ n = builder.tree.size ∧ ∃ text, form = .name text := by
  obtain ⟨text, named⟩ := named
  rw [form?_pushNode bounded] at named
  split at named
  · rename_i last
    exact .inr ⟨last, text, Option.some.inj named⟩
  · exact .inl ⟨text, named⟩

section Push

variable (same : ∀ child, child ∈ form.children ↔ child ∈ args)
  (free : ∀ p ∈ before ++ args ++ later,
    p < builder.tree.size ∧ builder.tree.parent (some p) = none)
include same free

theorem free_children : ∀ child ∈ form.children,
    child < builder.tree.size ∧ builder.tree.parent (some child) = none := fun child mem =>
  free child (by simp [(same child).mp mem])

theorem partOf_pushNode {p : Nat} (mem : p ∈ args) :
    (builder.pushNode form).2.tree.PartOf p builder.tree.size := by
  have child := (same p).mpr mem
  rw [Tree.PartOf, parent_pushNode fun child mem => (free_children same free child mem).1,
    if_pos child]

/-- What was under a part of the new node is now under the new node. -/
theorem exists_under_pushNode (xs : List Nat) {n : Nat}
    (h : ∃ q ∈ xs ++ args ++ later, builder.tree.Under n q) :
    ∃ q ∈ xs ++ builder.tree.size :: later,
      (builder.pushNode form).2.tree.Under n q := by
  obtain ⟨q, mem, under⟩ := h
  have under := (extends_pushNode (free_children same free)).under under
  by_cases part : q ∈ args
  · exact ⟨builder.tree.size, by simp, under.tail (partOf_pushNode same free part)⟩
  · refine ⟨q, ?_, under⟩
    simp only [List.mem_append, List.mem_cons] at mem ⊢
    grind

theorem ascending_pushNode (placed : builder.Placed)
    (last : ∀ text, form = .name text → later = [])
    (h : builder.tree.Ascending (before ++ args ++ later)) :
    (builder.pushNode form).2.tree.Ascending (before ++ builder.tree.size :: later) := by
  have bounded : ∀ child ∈ form.children, child < builder.tree.size := fun child mem =>
    (free_children same free child mem).1
  -- the induction is on the nodes before the parts, which keep their spans
  induction before with
  | nil =>
    refine ⟨fun n named from_new => ?_, ?_⟩
    · rcases isName_pushNode bounded named with old | ⟨rfl, -⟩
      · refine exists_under_pushNode same free [] ?_
        rw [span_pushNode bounded, if_pos rfl] at from_new
        rcases builder.startOf_cases form.children with empty | ⟨child, mem, start⟩
        · obtain ⟨text, found⟩ := old
          have less := Tree.lt_size_of_form? found
          rw [empty, placed.cursor] at from_new
          dsimp only at from_new
          omega
        · rw [start] at from_new
          exact h.exists_under ((same child).mp mem) old from_new
      · exact ⟨_, List.mem_cons_self, .refl⟩
    · by_cases nonempty : later = []
      · rw [nonempty]
        trivial
      · refine Tree.Ascending.mono (extends_pushNode (free_children same free)) (fun p mem => ?_)
          (fun n named => ?_) h.of_append
        · rw [span_pushNode bounded, if_neg (Nat.ne_of_lt (free p (by simp [mem])).1)]
        · -- a name is made last, so there is no new one here
          refine (isName_pushNode bounded named).resolve_right fun new_name => ?_
          obtain ⟨-, text, is_name⟩ := new_name
          exact nonempty (last text is_name)
  | cons p before ih =>
    have less : p < builder.tree.size := (free p (by simp)).1
    refine ⟨fun n named from_p => ?_, ih (fun q mem => free q (List.mem_cons_of_mem p mem)) h.2⟩
    rcases isName_pushNode bounded named with old | ⟨rfl, -⟩
    · rw [span_pushNode bounded, if_neg (Nat.ne_of_lt less)] at from_p
      exact exists_under_pushNode same free (p :: before) (h.1 n old from_p)
    · exact ⟨builder.tree.size, by simp, .refl⟩

end Push

theorem pending_pushNode (placed : builder.Placed)
    (same : ∀ child, child ∈ form.children ↔ child ∈ args)
    (last : ∀ text, form = .name text → later = [])
    (h : builder.tree.Pending (before ++ args ++ later)) :
    (builder.pushNode form).2.tree.Pending (before ++ builder.tree.size :: later) := by
  have free := h.free
  have bounded : ∀ child ∈ form.children, child < builder.tree.size := fun child mem =>
    (free_children same free child mem).1
  have old : ∀ p ∈ before ++ later, p < builder.tree.size ∧ builder.tree.parent (some p) = none :=
    fun p mem => free p (by simp only [List.mem_append] at mem ⊢; grind)
  have nodup := h.nodup
  refine ⟨?_, fun p mem => ?_, fun n named => ?_,
    ascending_pushNode same free placed last h.ascending⟩
  · have fresh : ∀ p ∈ before ++ later, p ≠ builder.tree.size := fun p mem =>
      Nat.ne_of_lt (old p mem).1
    simp only [List.nodup_append, List.nodup_cons, List.mem_append, List.mem_cons] at nodup fresh ⊢
    grind
  · rw [size_pushNode, parent_pushNode bounded]
    by_cases new : p = builder.tree.size
    · have fresh : p ∉ form.children := fun mem => Nat.ne_of_lt (bounded p mem) new
      rw [if_neg fresh, if_pos new]
      exact ⟨new ▸ Nat.lt_succ_self _, rfl⟩
    · have mem : p ∈ before ++ later := by
        simp only [List.mem_append, List.mem_cons] at mem ⊢
        grind
      have apart : p ∉ form.children := by
        rw [same]
        simp only [List.nodup_append, List.mem_append] at nodup mem
        grind
      rw [if_neg apart, if_neg new]
      exact ⟨Nat.lt_succ_of_lt (old p mem).1, (old p mem).2⟩
  · rcases isName_pushNode bounded named with old | ⟨rfl, -⟩
    · exact exists_under_pushNode same free before (h.cover n old)
    · exact ⟨builder.tree.size, by simp, .refl⟩

end Builder

/-! ## The steps of a call -/

namespace Builder.Layout

variable {builder : Builder} {rest done todo xs : List Nat} {form : Form}

/-- A call begins with all of its operands to be done. -/
theorem begin (h : builder.Layout (rest ++ xs) [] []) : builder.Layout rest [] xs where
  placed := h.placed
  numbered := by simpa using h.numbered
  pending := by simpa using h.pending
  held m n named le less from_m := by
    rcases h.held m n named le less from_m with under | into | ⟨-, _, _, _, split, -⟩
    · exact .inl under
    · exact .inr (.inl into)
    · simp at split

/-- An operand that is not wrapped is done as it is. -/
theorem move (h : builder.Layout rest done (xs ++ todo)) :
    builder.Layout rest (done ++ xs) todo where
  placed := h.placed
  numbered := h.numbered.sublist ((List.sublist_append_right xs todo).append_left rest)
  pending := by simpa using h.pending
  held m n named le less from_m := by
    refine (h.held m n named le less from_m).imp_right (Or.imp_right ?_)
    rintro ⟨block, before, after, q, rfl, mem, under⟩
    exact ⟨block, before, after ++ xs, q, by simp, by simpa using mem, under⟩

/-- Adding a node whose parts are `xs` puts it in their place. What the spans of the other nodes
hold is as before, and from the start of the new node on, names stand under it and the nodes in
`later`. -/
theorem pushNode {before later : List Nat} (h : builder.Layout rest done todo)
    (split : rest ++ done ++ todo = before ++ xs ++ later) (perm : form.children.Perm xs)
    (last : ∀ text, form = .name text → later = [])
    (block : ∀ stmts, form = .block stmts → form.children.Pairwise (· < ·)) :
    builder.tree.Extends (builder.pushNode form).2.tree ∧ (builder.pushNode form).2.Placed ∧
      (builder.pushNode form).2.tree.Pending (before ++ builder.tree.size :: later) ∧
      ∀ m n, (builder.pushNode form).2.tree.IsName n → n ≤ m →
        m < (builder.pushNode form).2.tree.size →
        ((builder.pushNode form).2.tree.span (some m)).start ≤ 2 * n →
        (builder.pushNode form).2.tree.Under n m ∨ (builder.pushNode form).2.tree.RunsInto m n ∨
          builder.tree.RunsOver done todo m n ∨
          m = builder.tree.size ∧ ∃ q ∈ later, (builder.pushNode form).2.tree.Under n q := by
  have pending := h.pending
  rw [split] at pending
  have same (child : Nat) : child ∈ form.children ↔ child ∈ xs := perm.mem_iff
  have free := free_children same pending.free
  have once : form.children.Nodup :=
    perm.nodup_iff.mpr (pending.nodup.sublist ((List.sublist_append_right before xs).trans
      (List.sublist_append_left _ later)))
  have bounded : ∀ child ∈ form.children, child < builder.tree.size := fun child mem =>
    (free child mem).1
  have ext := extends_pushNode free
  have after := pending_pushNode h.placed same last pending
  refine ⟨ext, h.placed.pushNode free once block, after, fun m n named le less from_m => ?_⟩
  by_cases new : m = builder.tree.size
  · subst new
    obtain ⟨q, mem, under⟩ := after.ascending.of_append.1 n named from_m
    rcases List.mem_cons.mp mem with rfl | mem
    · exact .inl under
    · exact .inr (.inr (.inr ⟨rfl, q, mem, under⟩))
  · rw [size_pushNode] at less
    have old : builder.tree.IsName n :=
      (isName_pushNode bounded named).resolve_right fun new => by omega
    rw [span_pushNode bounded, if_neg new] at from_m
    rcases h.held m n old le (by omega) from_m with under | into | runs
    · exact .inl (ext.under under)
    · exact .inr (.inl (ext.runsInto into))
    · exact .inr (.inr (.inl runs))

/-- A new node has a greater number than the ones before it. -/
theorem pairwise_concat (h : builder.Layout rest done todo) :
    (rest ++ [builder.tree.size]).Pairwise (· < ·) := by
  refine List.pairwise_append.mpr ⟨?_, List.pairwise_singleton _ _, fun p mem q mem' => ?_⟩
  · exact h.numbered.sublist (List.sublist_append_left rest todo)
  · rw [List.mem_singleton.mp mem']
    exact (h.pending.free p (by simp [mem])).1

/-- Operands to be done are wrapped into a block. -/
theorem wrap {stmts : List NodeRef} (h : builder.Layout rest done (stmts.filterMap id ++ todo)) :
    (builder.pushNode (.block stmts)).2.Layout rest (done ++ [builder.tree.size]) todo := by
  have split : rest ++ done ++ (stmts.filterMap id ++ todo)
      = (rest ++ done) ++ stmts.filterMap id ++ todo := by simp
  have perm : (Form.block stmts).children.Perm (stmts.filterMap id) := .refl _
  have same (child : Nat) : child ∈ (Form.block stmts).children ↔ child ∈ stmts.filterMap id :=
    perm.mem_iff
  have numbered := h.numbered
  have block : (stmts.filterMap id).Pairwise (· < ·) :=
    numbered.sublist ((List.sublist_append_left _ todo).trans (List.sublist_append_right rest _))
  obtain ⟨ext, placed, pending, held⟩ :=
    h.pushNode split perm (fun _ is_name => by cases is_name) fun _ _ => block
  refine ⟨placed, ?_, by simpa using pending, fun m n named le less from_m => ?_⟩
  · exact numbered.sublist ((List.sublist_append_right _ todo).append_left rest)
  refine (held m n named le less from_m).imp_right (Or.imp_right ?_)
  rintro (⟨⟨stmts', block⟩, before, after, q, rfl, mem, under⟩ | ⟨rfl, q, mem, under⟩)
  · obtain ⟨q, mem, under⟩ : ∃ q ∈ after ++ builder.tree.size :: todo,
        (builder.pushNode (.block stmts)).2.tree.Under n q :=
      exists_under_pushNode same (split ▸ h.pending.free) after ⟨q, by simpa using mem, under⟩
    exact ⟨⟨stmts', ext.form m _ block⟩, before, after ++ [builder.tree.size], q, by simp,
      by simpa using mem, under⟩
  · have bounded : ∀ child ∈ (Form.block stmts).children, child < builder.tree.size :=
      fun child child_mem => (free_children same (split ▸ h.pending.free) child child_mem).1
    refine ⟨⟨stmts, ?_⟩, done, [], q, rfl, mem, under⟩
    rw [form?_pushNode bounded, if_pos rfl]

/-- The statement around the parts that are done ends the call. -/
theorem close (h : builder.Layout rest done []) (parts : form.children = done)
    (late : form.isLateWrapping) :
    (builder.pushNode form).2.Layout (rest ++ [builder.tree.size]) [] [] := by
  have same : ∀ child, child ∈ form.children ↔ child ∈ done := fun child => by rw [parts]
  have no_block : ∀ stmts, form = .block stmts → form.children.Pairwise (· < ·) := by
    rintro stmts rfl
    cases late
  obtain ⟨ext, placed, pending, held⟩ :=
    h.pushNode (by rfl) (.of_eq parts) (fun _ _ => rfl) no_block
  refine ⟨placed, ?_, by simpa using pending, fun m n named le less from_m => ?_⟩
  · simpa using h.pairwise_concat
  rcases held m n named le less from_m with under | into | runs | ⟨-, q, mem, -⟩
  · exact .inl under
  · exact .inr (.inl into)
  · -- the block was ahead of the name among the parts, and now is in the finished statement
    obtain ⟨⟨stmts, block⟩, before, after, q, rfl, mem, under⟩ := runs
    have bounded : ∀ child ∈ form.children, child < builder.tree.size :=
      fun child child_mem => (free_children same h.pending.free child child_mem).1
    have made : (builder.pushNode form).2.tree.form? (some builder.tree.size) = some form := by
      rw [form?_pushNode bounded, if_pos rfl]
    refine .inr (.inl ⟨builder.tree.size, form, stmts, ext.form m _ block,
      partOf_pushNode same h.pending.free (by simp), made, late, before, after, q, ?_,
      by simpa using mem, ext.under under⟩)
    rw [Tree.children, made, ← parts]
    rfl
  · cases mem

/-- A node around all operands ends the call. -/
theorem push (h : builder.Layout (rest ++ xs) [] []) (perm : form.children.Perm xs)
    (block : ∀ stmts, form = .block stmts → form.children = xs) :
    (builder.pushNode form).2.Layout (rest ++ [builder.tree.size]) [] [] := by
  have split : rest ++ xs ++ [] ++ [] = rest ++ xs ++ [] := by simp
  have numbered : (rest ++ xs).Pairwise (· < ·) := by simpa using h.numbered
  have block (stmts : List NodeRef) (is_block : form = .block stmts) :
      form.children.Pairwise (· < ·) := by
    rw [block stmts is_block]
    exact numbered.sublist (List.sublist_append_right rest xs)
  obtain ⟨-, placed, pending, held⟩ := h.pushNode split perm (fun _ _ => rfl) block
  refine ⟨placed, ?_, by simpa using pending, fun m n named le less from_m => ?_⟩
  · simpa using h.begin.pairwise_concat
  rcases held m n named le less from_m with under | into | ⟨-, _, _, _, split, -⟩ | ⟨-, q, mem, -⟩
  · exact .inl under
  · exact .inr (.inl into)
  · simp at split
  · cases mem

end Builder.Layout

end LuaTyping
