import LuaTyping.Proofs.Subtyping.Comparison

/-!
# Comparisons made of alike parts

Two comparisons may differ in how they compare the parts of the types, in how they look members up,
or in whether `nil` is below everything known. Whatever relates the two passes from the parts to the
whole, if it does so at each way in which comparisons are put together. There are two of these: both
comparisons have to succeed, or either (`Precongruence`). A relation that knows when the first of
two comparisons has the same answer on both sides passes through any choice by that answer
(`Congruence`), and nothing more is needed of it where `nil` is treated alike.

The relation may be another one inside the guard than outside it, for there a comparison goes one
level deeper.
-/

set_option autoImplicit false
namespace LuaTyping.Subtyping

variable {m : Type → Type} [Monad m] {rules rules' : Rules m}

/-- The relation passes through the ways in which comparisons under the two sets of rules are put
together. Where `nil` is compared, only one of the two may go on; it is related to the comparison
that accepts at once. -/
structure Precongruence (rules rules' : Rules m)
    (related : CompareM m Bool → CompareM m Bool → Prop) : Prop where
  supertypes : rules'.resolver.supertypes = rules.resolver.supertypes
  answer (result : Bool) : related (pure result) (pure result)
  both {first first' second second' : CompareM m Bool} (h : related first first')
    (h' : related second second') :
    related (do if ← first then second else pure false)
      (do if ← first' then second' else pure false)
  either {first first' second second' : CompareM m Bool} (h : related first first')
    (h' : related second second') :
    related (do if ← first then pure true else second) (do if ← first' then pure true else second')
  lenient {run run' : CompareM m Bool} (h : related run run') :
    related (if !rules.nilStrict then pure true else run)
      (if !rules'.nilStrict then pure true else run')
  member (className : Option String) (members : List (Member Ty)) (name : String)
    {next next' : Option Ty → CompareM m Bool} (h : ∀ found, related (next found) (next' found)) :
    related (do next (← (memberOf rules.resolver className members name : m (Option Ty))))
      (do next' (← (memberOf rules'.resolver className members name : m (Option Ty))))

namespace Precongruence

variable {outside inside : CompareM m Bool → CompareM m Bool → Prop}
  (outer : Precongruence rules rules' outside) (inner : Precongruence rules rules' inside)

include outer in
theorem allM {α : Type} {test test' : α → CompareM m Bool} (xs : List α)
    (h : ∀ x, outside (test x) (test' x)) : outside (xs.allM test) (xs.allM test') := by
  induction xs with
  | nil => exact outer.answer true
  | cons x rest ih =>
    rw [allM_cons, allM_cons]
    exact outer.both (h x) ih

include outer in
/-- The rule for `nil`, before any other type is compared. -/
theorem nilRule (a : Ty) {run run' : CompareM m Bool} (h : outside run run') :
    outside (if a.isNil && !rules.nilStrict then pure true else run)
      (if a.isNil && !rules'.nilStrict then pure true else run') := by
  cases a.isNil with
  | true => exact outer.lenient h
  | false => exact h

/-! ## Parts -/

section Parts

variable {deeper deeper' : Ty → Ty → CompareM m Bool}
  (parts : ∀ a b, inside (deeper a b) (deeper' a b))
include inner parts

theorem hasMembers (className : Option String) (members expected : List (Member Ty)) :
    inside (hasMembers rules deeper className members expected)
      (hasMembers rules' deeper' className members expected) := by
  refine inner.allM expected fun wanted => ?_
  refine inner.member className members wanted.name fun found => ?_
  cases found with
  | some actual => exact parts actual wanted.ty
  | none => exact inner.answer false

theorem acceptsParams (params expected : List Ty) (variadic : Bool) :
    inside (acceptsParams deeper params expected variadic)
      (acceptsParams deeper' params expected variadic) := by
  refine inner.both (inner.allM _ fun pair => parts pair.1 pair.2) ?_
  cases variadic with
  | true => exact inner.answer true
  | false => exact inner.allM _ fun param => parts .nil param

theorem compareShapes (a b : Ty) :
    inside (compareShapes rules deeper a b) (compareShapes rules' deeper' a b) := by
  have inherits_eq (name : String) (supers : List String) (target : String) :
      inherits rules'.resolver name supers target = inherits rules.resolver name supers target := by
    rw [inherits, inherits, inner.supertypes]
  unfold Subtyping.compareShapes
  split
  · exact inner.answer true
  · rw [inherits_eq]
    exact inner.answer _
  · exact inner.answer false
  · exact inner.hasMembers parts _ _ _
  · exact inner.hasMembers parts _ _ _
  · exact inner.answer _
  · exact inner.answer _
  · exact parts _ _
  · exact inner.allM _ fun element => parts element _
  · split
    · exact inner.allM _ fun pair => parts pair.1 pair.2
    · exact inner.answer false
  · exact inner.both (inner.acceptsParams parts _ _ _) (parts _ _)
  · exact inner.answer false

/-! ## Alternatives -/

variable (guard : ∀ {key : Key} {compared compared' : CompareM m Bool},
  inside compared compared' → outside (guarded key compared) (guarded key compared'))
include outer guard

theorem belowSimple_definite (a : Ty) {b : Ty} (definite : b.isDefinite = true) :
    outside (belowSimple rules deeper a b) (belowSimple rules' deeper' a b) := by
  rw [Subtyping.belowSimple_definite rules deeper definite,
    Subtyping.belowSimple_definite rules' deeper' definite]
  split
  · exact outer.answer true
  · split
    · exact outer.answer false
    · exact outer.nilRule a (guard (inner.compareShapes parts a b))

omit inner parts guard in
theorem belowAny (a : Ty) {bs : List Ty}
    (each : ∀ b ∈ bs, outside (belowSimple rules deeper a b) (belowSimple rules' deeper' a b)) :
    outside (belowAny rules deeper a bs) (belowAny rules' deeper' a bs) := by
  induction bs with
  | nil => exact outer.answer false
  | cons b rest ih =>
    obtain ⟨first, others⟩ := List.forall_mem_cons.mp each
    exact outer.either first (ih others)

theorem belowSimple (a b : Ty) :
    outside (belowSimple rules deeper a b) (belowSimple rules' deeper' a b) := by
  induction b using Ty.induction_on_parts with
  | step b ih =>
    cases b with
    | unknown => exact outer.answer true
    | union alts =>
      rw [Subtyping.belowSimple, Subtyping.belowSimple]
      split
      · exact outer.answer false
      · exact outer.nilRule a (outer.belowAny a ih)
    | _ => exact belowSimple_definite outer inner parts guard a rfl

omit inner parts guard in
theorem belowAll {as : List Ty} (b : Ty)
    (each : ∀ a ∈ as, outside (below rules deeper a b) (below rules' deeper' a b)) :
    outside (belowAll rules deeper as b) (belowAll rules' deeper' as b) := by
  induction as with
  | nil => exact outer.answer true
  | cons a rest ih =>
    obtain ⟨first, others⟩ := List.forall_mem_cons.mp each
    exact outer.both first (ih others)

theorem below (a b : Ty) : outside (below rules deeper a b) (below rules' deeper' a b) := by
  induction a using Ty.induction_on_parts with
  | step a ih =>
    cases a with
    | union alts =>
      rw [Subtyping.below, Subtyping.below]
      split
      · exact outer.answer true
      · exact outer.belowAll b ih
    | _ => exact outer.belowSimple inner parts guard _ b

end Parts

include outer in
/-- A relation that is the same inside the guard passes to whole comparisons. -/
theorem compareWithin (guard : ∀ {key : Key} {compared compared' : CompareM m Bool},
      outside compared compared' → outside (guarded key compared) (guarded key compared'))
    (levels : Nat) (a b : Ty) :
    outside (compareWithin rules levels a b) (compareWithin rules' levels a b) := by
  induction levels generalizing a b with
  | zero => exact outer.answer false
  | succ levels ih => exact outer.below outer ih guard a b

end Precongruence

/-! ## Alike rules for `nil` -/

/-- The relation passes through any choice between comparisons, and the two sets of rules treat
`nil` alike. -/
structure Congruence (rules rules' : Rules m)
    (related : CompareM m Bool → CompareM m Bool → Prop) : Prop where
  nilStrict : rules'.nilStrict = rules.nilStrict
  supertypes : rules'.resolver.supertypes = rules.resolver.supertypes
  answer (result : Bool) : related (pure result) (pure result)
  branch {first first' yes yes' no no' : CompareM m Bool} (h : related first first')
    (hyes : related yes yes') (hno : related no no') :
    related (do if ← first then yes else no) (do if ← first' then yes' else no')
  member (className : Option String) (members : List (Member Ty)) (name : String)
    {next next' : Option Ty → CompareM m Bool} (h : ∀ found, related (next found) (next' found)) :
    related (do next (← (memberOf rules.resolver className members name : m (Option Ty))))
      (do next' (← (memberOf rules'.resolver className members name : m (Option Ty))))

namespace Congruence

variable {outside inside : CompareM m Bool → CompareM m Bool → Prop}

theorem precongruence (h : Congruence rules rules' outside) :
    Precongruence rules rules' outside where
  supertypes := h.supertypes
  answer := h.answer
  both first second := h.branch first second (h.answer false)
  either first second := h.branch first (h.answer true) second
  lenient := by
    intro run run' related
    rw [h.nilStrict]
    split
    · exact h.answer true
    · exact related
  member := h.member

theorem below (outer : Congruence rules rules' outside) (inner : Congruence rules rules' inside)
    {deeper deeper' : Ty → Ty → CompareM m Bool}
    (parts : ∀ a b, inside (deeper a b) (deeper' a b))
    (guard : ∀ {key : Key} {compared compared' : CompareM m Bool},
      inside compared compared' → outside (guarded key compared) (guarded key compared'))
    (a b : Ty) : outside (Subtyping.below rules deeper a b) (Subtyping.below rules' deeper' a b) :=
  outer.precongruence.below inner.precongruence parts guard a b

/-- A relation that is the same inside the guard passes to whole comparisons. -/
theorem compareWithin (outer : Congruence rules rules' outside)
    (guard : ∀ {key : Key} {compared compared' : CompareM m Bool},
      outside compared compared' → outside (guarded key compared) (guarded key compared'))
    (levels : Nat) (a b : Ty) :
    outside (Subtyping.compareWithin rules levels a b)
      (Subtyping.compareWithin rules' levels a b) :=
  outer.precongruence.compareWithin guard levels a b

end Congruence

end LuaTyping.Subtyping
