import LuaTyping.Proofs.Tree.Layout
import Mathlib.Data.List.Pairwise
import Mathlib.Data.List.Perm.Subperm

/-!
# The order of the text

The parts that a node refers to are all that is known of a tree from outside; where its nodes are
the parts of at most one other, the nodes that are reached from the root form a tree. A node then
comes before those in it, and before those in a later part of a node around it. Listing the nodes
of some forms by going through the parts lists each of them once and in that order.
-/

set_option autoImplicit false

namespace LuaTyping

namespace Tree

/-- The second node refers to the first as one of its parts. -/
def ChildOf (tree : Tree) (child whole : Nat) : Prop := child ∈ tree.children (some whole)

/-- The first node is the second or one of those in it. -/
def Below (tree : Tree) : Nat → Nat → Prop := Relation.ReflTransGen tree.ChildOf

def Reached (tree : Tree) (n : Nat) : Prop := ∃ root, tree.root = some root ∧ tree.Below n root

/-- No node is twice a part of others. -/
structure Branching (tree : Tree) : Prop where
  once : ∀ n, (tree.children (some n)).Nodup
  unique : ∀ child whole whole', tree.ChildOf child whole → tree.ChildOf child whole' →
    whole = whole'

/-- Moreover the root is no part of a node that is reached. -/
structure Rooted (tree : Tree) : Prop extends tree.Branching where
  top : ∀ root whole, tree.root = some root → tree.Reached whole → ¬ tree.ChildOf root whole

/-- In the text `m` comes before `n`: `n` lies in it, or in a later part of a node around it. -/
def Precedes (tree : Tree) (m n : Nat) : Prop :=
  Relation.TransGen tree.ChildOf n m ∨
    ∃ whole p q, [p, q].Sublist (tree.children (some whole)) ∧ tree.Below m p ∧ tree.Below n q

/-- Going from a node into its parts, one meets at most so many nodes one after another. -/
def HeightLE (tree : Tree) (n : Nat) : Nat → Prop
  | 0 => False
  | height + 1 => ∀ child ∈ tree.children (some n), tree.HeightLE child height

/-! ## Nodes that are reached -/

variable {tree : Tree}

theorem exists_form_of_childOf {child whole : Nat} (part : tree.ChildOf child whole) :
    ∃ form, tree.form? (some whole) = some form ∧ child ∈ form.children := by
  cases found : tree.form? (some whole) with
  | none => simp [ChildOf, children, found] at part
  | some form => exact ⟨form, rfl, by simpa [ChildOf, children, found] using part⟩

theorem childOf_iff {child whole : Nat} {form : Form}
    (found : tree.form? (some whole) = some form) :
    tree.ChildOf child whole ↔ some child ∈ form.parts := by
  simp [ChildOf, children, found, Form.children]

theorem Reached.of_childOf {child whole : Nat} (reached : tree.Reached whole)
    (part : tree.ChildOf child whole) : tree.Reached child := by
  obtain ⟨root, is_root, below⟩ := reached
  exact ⟨root, is_root, .head part below⟩

/-- That no node is twice a part of others can be seen from a list of all parts. -/
theorem branching_of_nodup
    (nodup : ((List.range tree.size).flatMap fun n => tree.children (some n)).Nodup) :
    tree.Branching := by
  obtain ⟨once, apart⟩ := List.pairwise_flatMap.mp nodup
  have listed {child whole : Nat} (part : tree.ChildOf child whole) : whole < tree.size := by
    obtain ⟨form, found, -⟩ := exists_form_of_childOf part
    exact lt_size_of_form? found
  refine ⟨fun n => ?_, fun child whole whole' part part' => ?_⟩
  · by_cases there : n < tree.size
    · exact once n (List.mem_range.mpr there)
    · have empty : tree.children (some n) = [] :=
        List.eq_nil_iff_forall_not_mem.mpr fun child part => there (listed part)
      simp [empty]
  · refine Decidable.byContradiction fun other => ?_
    have symmetric : Std.Symm fun a b => ∀ x ∈ tree.children (some a),
        ∀ y ∈ tree.children (some b), x ≠ y := ⟨fun a b h x mem y mem' => (h y mem' x mem).symm⟩
    exact apart.forall (List.mem_range.mpr (listed part)) (List.mem_range.mpr (listed part')) other
      child part child part' rfl

namespace Rooted

variable (rooted : tree.Rooted)
include rooted

/-- No node that is reached lies in itself. -/
theorem acyclic {n : Nat} (reached : tree.Reached n) : ¬ Relation.TransGen tree.ChildOf n n := by
  obtain ⟨root, is_root, below⟩ := reached
  induction below using Relation.ReflTransGen.head_induction_on with
  | refl =>
    intro circle
    obtain ⟨whole, part, below⟩ := Relation.TransGen.head'_iff.mp circle
    exact rooted.top root whole is_root ⟨root, is_root, below⟩ part
  | head part _ ih =>
    intro circle
    obtain ⟨whole, part', below⟩ := Relation.TransGen.head'_iff.mp circle
    cases rooted.unique _ _ _ part part'
    exact ih (.tail' below part)

/-- Nothing lies in two parts of a node. -/
theorem apart {whole p q m : Nat} (reached : tree.Reached whole) (first : tree.ChildOf p whole)
    (second : tree.ChildOf q whole) (other : p ≠ q) (below : tree.Below m p) :
    ¬ tree.Below m q := by
  intro below'
  -- of two nodes around `m` one lies in the other, and around that one is `whole`
  have circle {p q : Nat} (first : tree.ChildOf p whole) (second : tree.ChildOf q whole)
      (other : p ≠ q) (inside : tree.Below p q) : Relation.TransGen tree.ChildOf whole whole := by
    rcases Relation.ReflTransGen.cases_head inside with rfl | ⟨around, part, below⟩
    · exact absurd rfl other
    · cases rooted.unique _ _ _ first part
      exact .tail' below second
  have unique : Relator.RightUnique tree.ChildOf := fun _ _ _ part part' =>
    rooted.unique _ _ _ part part'
  rcases Relation.ReflTransGen.total_of_right_unique unique below below' with inside | inside
  · exact rooted.acyclic reached (circle first second other inside)
  · exact rooted.acyclic reached (circle second first other.symm inside)

/-- A node is in fewer nodes than there are. The induction is on the height still left, and `seen`
are the nodes around the one that is reached. -/
theorem heightLE_of_seen {height : Nat} {seen : List Nat} (nodup : seen.Nodup)
    (bounded : ∀ s ∈ seen, s < tree.size) {n : Nat} (reached : tree.Reached n)
    (around : ∀ s ∈ seen, Relation.TransGen tree.ChildOf n s)
    (enough : tree.size < seen.length + height) : tree.HeightLE n height := by
  induction height generalizing seen n with
  | zero =>
    have fits : seen.length ≤ (List.range tree.size).length :=
      (List.Nodup.subperm nodup fun s mem => List.mem_range.mpr (bounded s mem)).length_le
    rw [List.length_range] at fits
    omega
  | succ height ih =>
    intro child mem
    have part : tree.ChildOf child n := mem
    obtain ⟨form, found, -⟩ := exists_form_of_childOf part
    have fresh : n ∉ seen := fun mem => rooted.acyclic reached (around n mem)
    have wider : (n :: seen).Nodup := List.nodup_cons.mpr ⟨fresh, nodup⟩
    refine ih wider ?_ (reached.of_childOf part) ?_ (by rw [List.length_cons]; omega)
    · exact List.forall_mem_cons.mpr ⟨lt_size_of_form? found, bounded⟩
    · exact List.forall_mem_cons.mpr ⟨.single part, fun s mem => .head part (around s mem)⟩

theorem heightLE_of_reached {n : Nat} (reached : tree.Reached n) :
    tree.HeightLE n (tree.size + 1) :=
  rooted.heightLE_of_seen .nil (by simp) reached (by simp) (by simp)

end Rooted

/-! ## Listing nodes -/

/-- The nodes under one whose forms are picked, each before those in it. The parts of a node are
gone into only if its form is entered. -/
def listing (tree : Tree) (picks enters : Form → Bool) : (height : Nat) → NodeRef → List Nat
  | 0, _ => []
  | height + 1, ref =>
    match ref, tree.form? ref with
    | some n, some form =>
      (if picks form then [n] else []) ++
        if enters form then form.parts.flatMap (tree.listing picks enters height) else []
    | _, _ => []

/-- The second node refers to the first as one of its parts, and is of a form that is entered. -/
def Entered (tree : Tree) (enters : Form → Bool) (child whole : Nat) : Prop :=
  tree.ChildOf child whole ∧ ∃ form, tree.form? (some whole) = some form ∧ enters form

section Listing

variable {picks enters : Form → Bool} {height : Nat}

theorem listing_of_form? {n : Nat} {form : Form} (found : tree.form? (some n) = some form) :
    tree.listing picks enters (height + 1) (some n) =
      (if picks form then [n] else []) ++
        if enters form then form.parts.flatMap (tree.listing picks enters height) else [] := by
  simp only [listing, found]

theorem listing_of_absent {ref : NodeRef} (absent : tree.form? ref = none) :
    tree.listing picks enters height ref = [] := by
  cases height with
  | zero => rfl
  | succ height => cases ref <;> simp [listing, absent]

@[simp]
theorem listing_none : tree.listing picks enters height none = [] := listing_of_absent rfl

theorem HeightLE.of_part {n p : Nat} {form : Form} (h : tree.HeightLE n (height + 1))
    (found : tree.form? (some n) = some form) (part : some p ∈ form.parts) :
    tree.HeightLE p height := h p ((childOf_iff found).mpr part)

theorem mem_listing_succ {m n : Nat} {form : Form} (found : tree.form? (some n) = some form) :
    m ∈ tree.listing picks enters (height + 1) (some n) ↔
      m = n ∧ picks form ∨
        enters form ∧ ∃ p, some p ∈ form.parts ∧ m ∈ tree.listing picks enters height (some p) := by
  have own : m ∈ (if picks form then [n] else []) ↔ m = n ∧ picks form := by
    split <;> simp [*]
  have inner : m ∈ form.parts.flatMap (tree.listing picks enters height) ↔
      ∃ p, some p ∈ form.parts ∧ m ∈ tree.listing picks enters height (some p) := by
    rw [List.mem_flatMap]
    constructor
    · rintro ⟨ref, mem, listed⟩
      cases ref with
      | none => simp at listed
      | some p => exact ⟨p, mem, listed⟩
    · rintro ⟨p, mem, listed⟩
      exact ⟨some p, mem, listed⟩
  rw [listing_of_form? found, List.mem_append, own]
  split <;> simp [*]

theorem mem_listing_iff {m n : Nat} (h : tree.HeightLE n height) :
    m ∈ tree.listing picks enters height (some n) ↔
      (∃ form, tree.form? (some m) = some form ∧ picks form) ∧
        Relation.ReflTransGen (tree.Entered enters) m n := by
  induction height generalizing n with
  | zero => exact h.elim
  | succ height ih =>
    cases found : tree.form? (some n) with
    | none =>
      rw [listing_of_absent found]
      refine ⟨fun mem => absurd mem List.not_mem_nil, ?_⟩
      rintro ⟨⟨form, found_m, -⟩, path⟩
      rcases Relation.ReflTransGen.cases_tail path with rfl | ⟨p, -, -, form', found', -⟩
      · simp [found] at found_m
      · simp [found] at found'
    | some form =>
      rw [mem_listing_succ found]
      constructor
      · rintro (⟨rfl, picked⟩ | ⟨entered, p, part, listed⟩)
        · exact ⟨⟨form, found, picked⟩, .refl⟩
        · obtain ⟨picked, path⟩ := (ih (h.of_part found part)).mp listed
          exact ⟨picked, path.tail ⟨(childOf_iff found).mpr part, form, found, entered⟩⟩
      · rintro ⟨picked, path⟩
        rcases Relation.ReflTransGen.cases_tail path with rfl | ⟨p, path, part, entered⟩
        · obtain ⟨form', found', picked⟩ := picked
          cases found.symm.trans found'
          exact .inl ⟨rfl, picked⟩
        · obtain ⟨form', found', entered⟩ := entered
          cases found.symm.trans found'
          have part := (childOf_iff found).mp part
          exact .inr ⟨entered, p, part, (ih (h.of_part found part)).mpr ⟨picked, path⟩⟩

theorem below_of_mem_listing {m n : Nat} (h : tree.HeightLE n height)
    (mem : m ∈ tree.listing picks enters height (some n)) : tree.Below m n :=
  Relation.ReflTransGen.mono (fun _ _ entered => entered.1) _ _ ((mem_listing_iff h).mp mem).2

theorem mem_flatMap_listing_iff {m n : Nat} {form : Form} (h : tree.HeightLE n (height + 1))
    (found : tree.form? (some n) = some form) :
    m ∈ form.parts.flatMap (tree.listing picks enters height) ↔
      (∃ form, tree.form? (some m) = some form ∧ picks form) ∧
        ∃ p, tree.ChildOf p n ∧ Relation.ReflTransGen (tree.Entered enters) m p := by
  constructor
  · intro mem
    obtain ⟨ref, part, listed⟩ := List.mem_flatMap.mp mem
    cases ref with
    | none => simp at listed
    | some p =>
      obtain ⟨picked, path⟩ := (mem_listing_iff (h.of_part found part)).mp listed
      exact ⟨picked, p, (childOf_iff found).mpr part, path⟩
  · rintro ⟨picked, p, child, path⟩
    exact List.mem_flatMap.mpr ⟨some p, (childOf_iff found).mp child,
      (mem_listing_iff (h p child)).mpr ⟨picked, path⟩⟩

/-- What is listed in an earlier part comes before what is listed in a later one. -/
theorem Rooted.pairwise_flatMap_listing (rooted : tree.Rooted) {n : Nat} {form : Form}
    (reached : tree.Reached n) (found : tree.form? (some n) = some form)
    (h : tree.HeightLE n (height + 1))
    (each : ∀ p, some p ∈ form.parts →
      (tree.listing picks enters height (some p)).Pairwise fun a b => tree.Precedes a b ∧ a ≠ b) :
    (form.parts.flatMap (tree.listing picks enters height)).Pairwise
      fun a b => tree.Precedes a b ∧ a ≠ b := by
  refine List.pairwise_flatMap.mpr ⟨fun ref mem => ?_, ?_⟩
  · cases ref with
    | none => simp
    | some p => exact each p mem
  · have children : tree.children (some n) = form.parts.filterMap id := by
      simp [Tree.children, found, Form.children]
    have ordered : (tree.children (some n)).Pairwise fun p q =>
        ∀ a ∈ tree.listing picks enters height (some p),
          ∀ b ∈ tree.listing picks enters height (some q), tree.Precedes a b ∧ a ≠ b := by
      rw [List.pairwise_iff_forall_sublist]
      intro p q sub a mem_a b mem_b
      have first : tree.ChildOf p n := sub.subset (by simp)
      have second : tree.ChildOf q n := sub.subset (by simp)
      have other : p ≠ q := by simpa using (rooted.once n).sublist sub
      have below_a := below_of_mem_listing (h p first) mem_a
      have below_b := below_of_mem_listing (h q second) mem_b
      refine ⟨.inr ⟨n, p, q, sub, below_a, below_b⟩, ?_⟩
      rintro rfl
      exact rooted.apart reached first second other below_a below_b
    rw [children, List.pairwise_filterMap] at ordered
    refine ordered.imp fun {ref ref'} h a mem_a b mem_b => ?_
    cases ref with
    | none => simp at mem_a
    | some p =>
      cases ref' with
      | none => simp at mem_b
      | some q => exact h p rfl q rfl a mem_a b mem_b

/-- Nodes are listed once and in the order of the text. -/
theorem Rooted.pairwise_listing (rooted : tree.Rooted) {n : Nat}
    (reached : tree.Reached n) (h : tree.HeightLE n height) :
    (tree.listing picks enters height (some n)).Pairwise
      fun a b => tree.Precedes a b ∧ a ≠ b := by
  induction height generalizing n with
  | zero => exact h.elim
  | succ height ih =>
    cases found : tree.form? (some n) with
    | none => simp [listing_of_absent found]
    | some form =>
      have inner := rooted.pairwise_flatMap_listing reached found h fun p part =>
        have child := (childOf_iff found).mpr part
        ih (reached.of_childOf child) (h p child)
      have inside (m : Nat)
          (mem : m ∈ form.parts.flatMap (tree.listing picks enters height)) :
          Relation.TransGen tree.ChildOf m n := by
        obtain ⟨ref, part, mem⟩ := List.mem_flatMap.mp mem
        cases ref with
        | none => simp at mem
        | some p =>
          have child := (childOf_iff found).mpr part
          exact .tail' (below_of_mem_listing (h p child) mem) child
      rw [listing_of_form? found]
      split <;> split
      · refine List.pairwise_append.mpr ⟨List.pairwise_singleton _ _, inner, fun a mem b mem' => ?_⟩
        cases List.mem_singleton.mp mem
        have inside := inside b mem'
        refine ⟨.inl inside, ?_⟩
        rintro rfl
        exact rooted.acyclic reached inside
      · simp
      · simpa using inner
      · simp

end Listing

end Tree

end LuaTyping
