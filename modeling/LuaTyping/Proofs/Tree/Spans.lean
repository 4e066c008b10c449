import LuaTyping.Proofs.Tree.TextOrder
import Mathlib.Data.List.Induction
import Mathlib.Order.Lattice.Nat
import Mathlib.Order.Interval.Set.OrdConnected

/-!
# Spans of trees built by adding nodes

Nodes are added one after another, each around any nodes that are there already; nothing is said of
their order, and a node may be listed by several others. Still the spans nest: a node ends after
everything made before it and starts where one of the nodes in it was made, so its span holds those
of its parts. If moreover the nodes in any one are numbered without a gap, what is neither in a node
nor around it ends before the node starts, or starts after it ends (`spans_nest`).

What is in a node is told by the parts that nodes list. The links from the parts to the nodes around
them say less where a node is listed twice, since only the last one that lists it has the link.
-/

set_option autoImplicit false

namespace LuaTyping

/-! ## One more node -/

/-- Where the nodes stand in the text after forms were added, whatever their parts are. -/
structure Builder.Stacked (builder : Builder) (forms : List Form) : Prop where
  size : builder.tree.size = forms.length
  form : ∀ i, builder.tree.form? (some i) = forms[i]?
  cursor : builder.cursor = 2 * forms.length
  earlier : ∀ child whole, builder.tree.ChildOf child whole → child < whole
  stop : ∀ n < forms.length, (builder.tree.span (some n)).stop = 2 * n + 1
  start : ∀ child whole, builder.tree.ChildOf child whole →
    (builder.tree.span (some whole)).start ≤ (builder.tree.span (some child)).start
  /-- A node starts where it was made itself or some node in it. -/
  first : ∀ n < forms.length, ∃ leaf, builder.tree.Below leaf n ∧
    (builder.tree.span (some n)).start = 2 * leaf
  parent : ∀ child whole, builder.tree.parent (some child) = some whole ↔
    IsGreatest {n | builder.tree.ChildOf child n} whole

namespace Tree

theorem ChildOf.lt_size {tree : Tree} {child whole : Nat} (part : tree.ChildOf child whole) :
    whole < tree.size := by
  obtain ⟨form, found, -⟩ := exists_form_of_childOf part
  exact lt_size_of_form? found

end Tree

namespace Builder

variable {builder : Builder} {form : Form} {forms : List Form}

theorem stacked_empty : empty.Stacked [] where
  size := rfl
  form i := by simp [empty, Tree.form?, Tree.node?, Tree.empty]
  cursor := rfl
  earlier child whole part := absurd part.lt_size (Nat.not_lt_zero whole)
  stop n less := absurd less (Nat.not_lt_zero n)
  start child whole part := absurd part.lt_size (Nat.not_lt_zero whole)
  first n less := absurd less (Nat.not_lt_zero n)
  parent child whole := by
    have none : empty.tree.parent (some child) = none := by
      simp [empty, Tree.parent, Tree.node?, Tree.empty]
    constructor
    · intro linked
      rw [none] at linked
      cases linked
    · intro greatest
      exact absurd greatest.1.lt_size (Nat.not_lt_zero whole)

/-- A new node lists its parts, and the others list what they listed. -/
theorem childOf_pushNode (bounded : ∀ child ∈ form.children, child < builder.tree.size)
    {child whole : Nat} : (builder.pushNode form).2.tree.ChildOf child whole ↔
      whole = builder.tree.size ∧ child ∈ form.children ∨ builder.tree.ChildOf child whole := by
  rw [Tree.ChildOf, children_pushNode bounded]
  split
  · rename_i last
    have old : ¬ builder.tree.ChildOf child whole := fun part =>
      absurd part.lt_size (last ▸ Nat.lt_irrefl whole)
    simp [last, last ▸ old]
  · rename_i other
    simp [other, Tree.ChildOf]

theorem below_pushNode (bounded : ∀ child ∈ form.children, child < builder.tree.size) {m n : Nat}
    (below : builder.tree.Below m n) : (builder.pushNode form).2.tree.Below m n :=
  Relation.ReflTransGen.mono (fun _ _ part => (childOf_pushNode bounded).mpr (.inr part)) _ _ below

/-- The last node that lists another is the one that it is linked to. -/
theorem parent_pushNode_iff (bounded : ∀ child ∈ form.children, child < builder.tree.size)
    (earlier : ∀ child whole, builder.tree.ChildOf child whole → child < whole)
    (parent : ∀ child whole, builder.tree.parent (some child) = some whole ↔
      IsGreatest {n | builder.tree.ChildOf child n} whole) (child whole : Nat) :
    (builder.pushNode form).2.tree.parent (some child) = some whole ↔
      IsGreatest {n | (builder.pushNode form).2.tree.ChildOf child n} whole := by
  rw [parent_pushNode bounded]
  by_cases listed : child ∈ form.children
  · have greatest : IsGreatest {n | (builder.pushNode form).2.tree.ChildOf child n}
        builder.tree.size := by
      refine ⟨(childOf_pushNode bounded).mpr (.inl ⟨rfl, listed⟩), fun n part => ?_⟩
      rcases (childOf_pushNode bounded).mp part with ⟨rfl, -⟩ | part
      · exact Nat.le_refl _
      · exact Nat.le_of_lt part.lt_size
    rw [if_pos listed, Option.some.injEq]
    exact ⟨fun same => same ▸ greatest, fun other => greatest.unique other⟩
  · have same : {n | (builder.pushNode form).2.tree.ChildOf child n}
        = {n | builder.tree.ChildOf child n} := by
      ext n
      simp [childOf_pushNode bounded, listed]
    rw [if_neg listed, same]
    split
    · rename_i last
      constructor
      · intro linked
        cases linked
      · intro greatest
        have less := earlier child whole greatest.1
        have := greatest.1.lt_size
        omega
    · exact parent child whole

theorem Stacked.pushNode (h : builder.Stacked forms)
    (back : ∀ child ∈ form.children, child < forms.length) :
    (builder.pushNode form).2.Stacked (forms ++ [form]) := by
  have bounded : ∀ child ∈ form.children, child < builder.tree.size := by
    rw [h.size]
    exact back
  have span_old {n : Nat} (less : n < builder.tree.size) :
      (builder.pushNode form).2.tree.span (some n) = builder.tree.span (some n) := by
    rw [span_pushNode bounded, if_neg (Nat.ne_of_lt less)]
  have span_new : (builder.pushNode form).2.tree.span (some builder.tree.size)
      = ⟨builder.startOf form.children, builder.cursor + 1⟩ := by
    rw [span_pushNode bounded, if_pos rfl]
  have cases_length {n : Nat} (less : n < (forms ++ [form]).length) :
      n = builder.tree.size ∨ n < builder.tree.size := by
    rw [List.length_append, List.length_singleton, ← h.size] at less
    omega
  refine ⟨?size, ?form, ?cursor, ?earlier, ?stop, ?start, ?first,
    parent_pushNode_iff bounded h.earlier h.parent⟩
  case size =>
    rw [size_pushNode, h.size, List.length_append, List.length_singleton]
  case form =>
    intro i
    rw [form?_pushNode bounded, h.size, h.form, List.getElem?_append]
    grind
  case cursor =>
    show builder.cursor + 2 = _
    rw [h.cursor, List.length_append, List.length_singleton, Nat.mul_add]
  case earlier =>
    intro child whole part
    rcases (childOf_pushNode bounded).mp part with ⟨rfl, listed⟩ | part
    · exact bounded child listed
    · exact h.earlier child whole part
  case stop =>
    intro n less
    rcases cases_length less with rfl | old
    · rw [span_new, h.cursor, h.size]
    · rw [span_old old]
      exact h.stop n (h.size ▸ old)
  case start =>
    intro child whole part
    rcases (childOf_pushNode bounded).mp part with ⟨rfl, listed⟩ | part
    · rw [span_new, span_old (bounded child listed)]
      exact builder.startOf_le listed
    · have less := h.earlier child whole part
      rw [span_old part.lt_size, span_old (Nat.lt_trans less part.lt_size)]
      exact h.start child whole part
  case first =>
    intro n less
    rcases cases_length less with rfl | old
    · rw [span_new]
      rcases builder.startOf_cases form.children with none | ⟨child, listed, start⟩
      · exact ⟨builder.tree.size, .refl, by rw [none, h.cursor, h.size]⟩
      · obtain ⟨leaf, below, made⟩ := h.first child (back child listed)
        have part := (childOf_pushNode bounded).mpr (.inl ⟨rfl, listed⟩)
        exact ⟨leaf, (below_pushNode bounded below).tail part, start.trans made⟩
    · obtain ⟨leaf, below, made⟩ := h.first n (h.size ▸ old)
      exact ⟨leaf, below_pushNode bounded below, by rw [span_old old, made]⟩

end Builder

/-! ## Any number of nodes -/

/-- The parts of each form are numbers of forms before it. -/
def Form.ReferBack (forms : List Form) : Prop :=
  ∀ (i : Nat) (there : i < forms.length), ∀ child ∈ forms[i].children, child < i

instance (forms : List Form) : Decidable (Form.ReferBack forms) :=
  inferInstanceAs (Decidable (∀ _ _, _))

theorem Form.ReferBack.concat {forms : List Form} {form : Form}
    (back : Form.ReferBack (forms ++ [form])) :
    Form.ReferBack forms ∧ ∀ child ∈ form.children, child < forms.length := by
  refine ⟨fun i there child mem => back i ?_ child ?_,
    fun child mem => back forms.length ?_ child ?_⟩
  · rw [List.length_append]
    exact Nat.lt_add_right _ there
  · rwa [List.getElem_append_left there]
  · rw [List.length_append]
    exact Nat.lt_succ_self _
  · rwa [List.getElem_concat_length rfl]

namespace Builder

/-- The builder after adding nodes of the forms in order. -/
def adding (forms : List Form) : Builder := (forms.mapM BuildM.push Builder.empty).2

theorem adding_concat (forms : List Form) (form : Form) :
    adding (forms ++ [form]) = ((adding forms).pushNode form).2 := by
  rw [adding, List.mapM_append]
  rfl

theorem stacked_adding {forms : List Form} (back : Form.ReferBack forms) :
    (adding forms).Stacked forms := by
  induction forms using List.reverseRecOn with
  | nil => exact stacked_empty
  | append_singleton forms form ih =>
    obtain ⟨earlier, last⟩ := back.concat
    rw [adding_concat]
    exact (ih earlier).pushNode last

end Builder

/-- No offset is in both spans, not even at an end of them. -/
def Span.Apart (a b : Span) : Prop := a.stop < b.start ∨ b.stop < a.start

namespace Builder.Stacked

variable {builder : Builder} {forms : List Form} (h : builder.Stacked forms)
include h

theorem lt_length {child whole : Nat} (part : builder.tree.ChildOf child whole) :
    whole < forms.length := h.size ▸ part.lt_size

theorem encloses {child whole : Nat} (part : builder.tree.ChildOf child whole) :
    (builder.tree.span (some whole)).encloses (builder.tree.span (some child)) = true := by
  have less := h.earlier child whole part
  have there := h.lt_length part
  have start := h.start child whole part
  simp only [Span.encloses, Bool.and_eq_true, decide_eq_true_eq]
  rw [h.stop child (Nat.lt_trans less there), h.stop whole there]
  omega

theorem parent_eq_none_iff (child : Nat) :
    builder.tree.parent (some child) = none ↔ ∀ n, ¬ builder.tree.ChildOf child n := by
  have bounded : BddAbove {n | builder.tree.ChildOf child n} :=
    ⟨forms.length, fun n part => Nat.le_of_lt (h.lt_length part)⟩
  constructor
  · intro none n part
    have greatest : IsGreatest {n | builder.tree.ChildOf child n} _ :=
      ⟨Nat.sSup_mem ⟨n, part⟩ bounded, fun m part => le_csSup bounded part⟩
    rw [(h.parent child _).mpr greatest] at none
    cases none
  · intro unlisted
    refine Option.eq_none_iff_forall_ne_some.mpr fun whole linked => ?_
    exact unlisted whole ((h.parent child whole).mp linked).1

/-- Where no node is listed twice, the links lead to the same nodes as the lists. -/
theorem under_iff_below (unique : ∀ child whole whole', builder.tree.ChildOf child whole →
      builder.tree.ChildOf child whole' → whole = whole') (m n : Nat) :
    builder.tree.Under m n ↔ builder.tree.Below m n := by
  have same : builder.tree.PartOf = builder.tree.ChildOf := by
    funext child whole
    refine propext ((h.parent child whole).trans ⟨And.left, fun part => ⟨part, ?_⟩⟩)
    exact fun other part' => Nat.le_of_eq (unique child other whole part' part)
  rw [Tree.Under, same, Tree.Below]

/-- What comes before the nodes in a node ends before the node starts. -/
theorem stop_lt_start (gapless : ∀ n, {m | builder.tree.Below m n}.OrdConnected) {m n : Nat}
    (less : m < n) (there : n < forms.length) (outside : ¬ builder.tree.Below m n) :
    (builder.tree.span (some m)).stop < (builder.tree.span (some n)).start := by
  obtain ⟨leaf, below, made⟩ := h.first n there
  have before : m < leaf := by
    refine Nat.lt_of_not_le fun le => outside ?_
    exact (gapless n).out below (Relation.ReflTransGen.refl : builder.tree.Below n n)
      ⟨le, Nat.le_of_lt less⟩
  rw [h.stop m (Nat.lt_trans less there), made]
  omega

section Tiled

-- the nodes in a node are to be those from `low` of it on: each of its parts reaches up to the next
variable {low : Nat → Nat} (le : ∀ n < forms.length, low n ≤ n)
  (opens : ∀ whole < forms.length, ∀ child ∈ builder.tree.children (some whole),
    low whole ≤ low child)
  (tiled : ∀ whole < forms.length, ∀ m < whole, low whole ≤ m →
    ∃ child ∈ builder.tree.children (some whole), low child ≤ m ∧ m ≤ child)
include le opens tiled

/-- If the parts of each node follow one another without a gap, so do the nodes in it. The induction
is on the node around. -/
theorem below_iff_of_tiled {m n : Nat} (there : n < forms.length) :
    builder.tree.Below m n ↔ low n ≤ m ∧ m ≤ n := by
  constructor
  · intro below
    induction below with
    | refl => exact ⟨le m there, Nat.le_refl m⟩
    | tail _ part ih =>
      have less := h.earlier _ _ part
      have := opens _ there _ part
      have := ih (Nat.lt_trans less there)
      omega
  · induction n using Nat.strong_induction_on with
    | _ n ih =>
      rintro ⟨from_low, up_to⟩
      rcases Nat.eq_or_lt_of_le up_to with rfl | less
      · exact .refl
      · obtain ⟨child, part, inside⟩ := tiled n there m less from_low
        have earlier := h.earlier child n part
        exact (ih child earlier (Nat.lt_trans earlier there) inside).tail part

theorem gapless_of_tiled (n : Nat) : {m | builder.tree.Below m n}.OrdConnected := by
  by_cases there : n < forms.length
  · have range : {m | builder.tree.Below m n} = Set.Icc (low n) n :=
      Set.ext fun m => h.below_iff_of_tiled le opens tiled there
    rw [range]
    exact Set.ordConnected_Icc
  · have alone : {m | builder.tree.Below m n} = {n} := by
      refine Set.eq_singleton_iff_unique_mem.mpr ⟨.refl, fun m below => ?_⟩
      rcases Relation.ReflTransGen.cases_tail below with same | ⟨_, -, part⟩
      · exact same.symm
      · exact absurd (h.lt_length part) there
    rw [alone]
    exact Set.ordConnected_singleton

end Tiled

end Builder.Stacked

/-- Nodes that are added one after another, each around nodes that are there already: they are
numbered in the order of the forms, the span of each holds those of its parts, which have smaller
numbers, and ends later than all before it; each is linked to the last node that lists it. If the
nodes in any one are numbered without a gap, nodes of which none is in the other are apart. In a
file of fewer than 2³¹ nodes no offset needs more than 32 bits. -/
theorem spans_nest {forms : List Form} (back : Form.ReferBack forms) :
    let tree := (Builder.adding forms).tree
    (∀ n, tree.form? (some n) = forms[n]?) ∧
      (∀ child whole, tree.ChildOf child whole →
        child < whole ∧ (tree.span (some whole)).encloses (tree.span (some child)) = true) ∧
      (∀ m n, m < n → n < forms.length →
        (tree.span (some m)).stop < (tree.span (some n)).stop) ∧
      (∀ child whole, tree.parent (some child) = some whole ↔
        IsGreatest {n | tree.ChildOf child n} whole) ∧
      (∀ child, tree.parent (some child) = none ↔ ∀ n, ¬ tree.ChildOf child n) ∧
      ((∀ n, {m | tree.Below m n}.OrdConnected) → ∀ m n, m < forms.length → n < forms.length →
        ¬ tree.Below m n → ¬ tree.Below n m →
          (tree.span (some m)).Apart (tree.span (some n))) ∧
      ((∀ child whole whole', tree.ChildOf child whole → tree.ChildOf child whole' →
          whole = whole') → ∀ m n, tree.Under m n ↔ tree.Below m n) ∧
      (forms.length < 2 ^ 31 → ∀ n < forms.length, (tree.span (some n)).stop < 2 ^ 32) := by
  intro tree
  have h := Builder.stacked_adding back
  refine ⟨h.form, fun child whole part => ⟨h.earlier child whole part, h.encloses part⟩, ?_,
    h.parent, h.parent_eq_none_iff, fun gapless m n there there' outside outside' => ?_,
    h.under_iff_below, fun small n there => ?_⟩
  · intro m n less there
    rw [h.stop m (Nat.lt_trans less there), h.stop n there]
    omega
  · rcases Nat.lt_trichotomy m n with less | rfl | less
    · exact .inl (h.stop_lt_start gapless less there' outside)
    · exact absurd .refl outside
    · exact .inr (h.stop_lt_start gapless less there outside')
  · rw [h.stop n there]
    omega

/-- The call `f(1 + 2)`, and then a name. The name `f` is apart from the sum, and the call from the
name. -/
theorem spans_nest_call :
    let forms : List Form := [.name "f", .number, .number, .binary .add (some 1) (some 2),
      .call (some 0) none [some 3], .name "x"]
    let tree := (Builder.adding forms).tree
    Form.ReferBack forms ∧ (∀ n, {m | tree.Below m n}.OrdConnected) ∧
      (tree.ChildOf 3 4 ∧ (tree.span (some 4)).encloses (tree.span (some 3)) = true) ∧
      (¬ tree.Below 0 3 ∧ ¬ tree.Below 3 0 ∧
        (tree.span (some 0)).Apart (tree.span (some 3))) ∧
      (¬ tree.Below 4 5 ∧ ¬ tree.Below 5 4 ∧
        (tree.span (some 4)).Apart (tree.span (some 5))) := by
  intro forms tree
  have back : Form.ReferBack forms := by decide
  have h := Builder.stacked_adding back
  let low (n : Nat) : Nat := [0, 1, 2, 1, 0, 5].getD n 0
  have le : ∀ n < forms.length, low n ≤ n := by decide
  have opens : ∀ whole < forms.length, ∀ child ∈ tree.children (some whole),
      low whole ≤ low child := by decide
  have tiled : ∀ whole < forms.length, ∀ m < whole, low whole ≤ m →
      ∃ child ∈ tree.children (some whole), low child ≤ m ∧ m ≤ child := by decide
  have gapless := h.gapless_of_tiled le opens tiled
  have outside {m n : Nat} (there : n < forms.length) (out : ¬ (low n ≤ m ∧ m ≤ n)) :
      ¬ tree.Below m n := mt (h.below_iff_of_tiled le opens tiled there).mp out
  have part : 3 ∈ tree.children (some 4) := by decide
  obtain ⟨-, parts, -, -, -, apart, -⟩ := spans_nest back
  have apart (m n : Nat) (there : m < forms.length) (there' : n < forms.length)
      (out : ¬ (low n ≤ m ∧ m ≤ n)) (out' : ¬ (low m ≤ n ∧ n ≤ m)) :
      ¬ tree.Below m n ∧ ¬ tree.Below n m ∧ (tree.span (some m)).Apart (tree.span (some n)) :=
    ⟨outside there' out, outside there out',
      apart gapless m n there there' (outside there' out) (outside there out')⟩
  exact ⟨back, gapless, ⟨part, (parts 3 4 part).2⟩,
    apart 0 3 (by decide) (by decide) (by decide) (by decide),
    apart 4 5 (by decide) (by decide) (by decide) (by decide)⟩

/-- A node that two others list is linked to the last of them, which the other one is not in. -/
example :
    let tree := (Builder.adding [.nil, .paren (some 0), .paren (some 1),
      .binary .add (some 1) (some 2)]).tree
    tree.parent (some 1) = some 3 ∧ tree.span (some 1) = ⟨0, 3⟩ ∧ tree.span (some 2) = ⟨0, 5⟩ := by
  decide

end LuaTyping
