import LuaTyping.Ty.Outline
import Mathlib.Algebra.GroupWithZero.Nat

/-!
# Outlines as keys

A comparison in progress is known by two outlines, so what an outline remembers of a type decides
which comparisons are taken for the same one. This file says what it remembers.

* Equality of outlines is real equality, which the guard needs to look keys up.
* The *weight* of an outline counts its nodes. Going from a type to one of its parts makes it
  lighter, except that the inside of a record is not counted at all.
* Whether an outline *mentions a record* is kept in the same way: parts of a type that mention one
  make the type mention one.

Weight and mention are all that the argument about repeated keys uses; it never looks at labels.
-/

set_option autoImplicit false

namespace LuaTyping

/-- Whether a label stands for a record. -/
def Label.isRecord : Label → Bool
  | .record _ => true
  | _ => false

namespace Outline

/-! ## Equality is lawful -/

mutual

theorem eq_of_same : ∀ {a b : Outline}, same a b = true → a = b
  | .node label parts, .node label' parts', h => by
    rw [same, Bool.and_eq_true, beq_iff_eq] at h
    rw [h.1, eq_of_sameParts h.2]
termination_by structural a => a

theorem eq_of_sameParts : ∀ {as bs : List Outline}, sameParts as bs = true → as = bs
  | [], [], _ => rfl
  | a :: as, b :: bs, h => by
    rw [sameParts, Bool.and_eq_true] at h
    rw [eq_of_same h.1, eq_of_sameParts h.2]
  | [], _ :: _, h => by simp [sameParts] at h
  | _ :: _, [], h => by simp [sameParts] at h
termination_by structural as => as

end

mutual

theorem same_refl : ∀ a : Outline, same a a = true
  | .node label parts => by rw [same, sameParts_refl parts, Bool.and_true, beq_iff_eq]
termination_by structural a => a

theorem sameParts_refl : ∀ as : List Outline, sameParts as as = true
  | [] => rfl
  | a :: as => by rw [sameParts, same_refl a, sameParts_refl as, Bool.and_true]
termination_by structural as => as

end

instance : LawfulBEq Outline where
  eq_of_beq := eq_of_same
  rfl := same_refl _

/-! ## Weight and records -/

mutual

/-- The number of nodes of an outline. -/
def weight : Outline → Nat
  | .node _ parts => weights parts + 1
termination_by structural a => a

/-- The number of nodes of several outlines. -/
def weights : List Outline → Nat
  | [] => 0
  | a :: as => weight a + weights as
termination_by structural as => as

end

mutual

/-- Whether a record stands anywhere in an outline. -/
def mentionsRecord : Outline → Bool
  | .node label parts => label.isRecord || partsMentionRecord parts
termination_by structural a => a

/-- Whether a record stands anywhere in several outlines. -/
def partsMentionRecord : List Outline → Bool
  | [] => false
  | a :: as => mentionsRecord a || partsMentionRecord as
termination_by structural as => as

end

theorem weights_eq_sum : ∀ as : List Outline, weights as = (as.map weight).sum
  | [] => rfl
  | a :: as => by rw [weights, weights_eq_sum as, List.map_cons, List.sum_cons]

theorem partsMentionRecord_eq_any : ∀ as : List Outline,
    partsMentionRecord as = as.any mentionsRecord
  | [] => rfl
  | a :: as => by rw [partsMentionRecord, partsMentionRecord_eq_any as, List.any_cons]

theorem weight_le_weights {a : Outline} {as : List Outline} (h : a ∈ as) :
    a.weight ≤ weights as := by
  induction as with
  | nil => exact absurd h (by simp)
  | cons b as ih =>
    rw [weights]
    rcases List.mem_cons.mp h with rfl | h
    · exact Nat.le_add_right _ _
    · exact Nat.le_trans (ih h) (Nat.le_add_left _ _)

theorem weight_pos : ∀ a : Outline, 0 < a.weight
  | .node _ _ => by rw [weight]; exact Nat.succ_pos _

/-- Sorting moves parts around and loses none. -/
theorem weights_sortParts (parts : List Outline) : weights (sortParts parts) = weights parts := by
  rw [weights_eq_sum, weights_eq_sum]
  exact ((List.mergeSort_perm parts _).map weight).sum_nat

theorem mem_sortParts {part : Outline} {parts : List Outline} :
    part ∈ sortParts parts ↔ part ∈ parts :=
  List.mem_mergeSort

theorem partsMentionRecord_sortParts (parts : List Outline) :
    partsMentionRecord (sortParts parts) = partsMentionRecord parts := by
  rw [partsMentionRecord_eq_any, partsMentionRecord_eq_any, Bool.eq_iff_iff, List.any_eq_true,
    List.any_eq_true]
  simp only [mem_sortParts]

end Outline

namespace Ty

theorem outlines_eq_map : ∀ tys : List Ty, outlines tys = tys.map outline
  | [] => rfl
  | ty :: rest => by rw [outlines, outlines_eq_map rest, List.map_cons]

/-- The weight of a type's outline. -/
def weight (ty : Ty) : Nat := ty.outline.weight

/-- Whether a type's outline mentions a record. -/
def mentionsRecord (ty : Ty) : Bool := ty.outline.mentionsRecord

theorem weight_pos (ty : Ty) : 0 < ty.weight := Outline.weight_pos _

theorem outline_mem_outlines {ty : Ty} {tys : List Ty} (h : ty ∈ tys) :
    ty.outline ∈ outlines tys := by
  rw [outlines_eq_map]
  exact List.mem_map_of_mem h

theorem weight_le_outlines {ty : Ty} {tys : List Ty} (h : ty ∈ tys) :
    ty.weight ≤ Outline.weights (outlines tys) :=
  Outline.weight_le_weights (outline_mem_outlines h)

/-! ## A part is lighter, and what it mentions the whole mentions -/

theorem weight_union (alts : List Ty) :
    (Ty.union alts).weight = Outline.weights (outlines alts) + 1 := by
  show Outline.weights (Outline.sortParts (outlines alts)) + 1 = _
  rw [Outline.weights_sortParts]

theorem mentionsRecord_union (alts : List Ty) :
    (Ty.union alts).mentionsRecord = Outline.partsMentionRecord (outlines alts) := by
  show (Label.union.isRecord || Outline.partsMentionRecord (Outline.sortParts (outlines alts))) = _
  rw [Outline.partsMentionRecord_sortParts]
  rfl

theorem weight_tuple (elements : List Ty) :
    (Ty.tuple elements).weight = Outline.weights (outlines elements) + 1 := rfl

theorem weight_array (element : Ty) : (Ty.array element).weight = element.weight + 1 := rfl

theorem weight_function (params : List Ty) (ret : Ty) (variadic : Bool) (generics : List String) :
    (Ty.function params ret variadic generics).weight
      = ret.weight + Outline.weights (outlines params) + 1 := rfl

theorem mentionsRecord_function (params : List Ty) (ret : Ty) (variadic : Bool)
    (generics : List String) :
    (Ty.function params ret variadic generics).mentionsRecord
      = (ret.mentionsRecord || Outline.partsMentionRecord (outlines params)) := rfl

end Ty

end LuaTyping
