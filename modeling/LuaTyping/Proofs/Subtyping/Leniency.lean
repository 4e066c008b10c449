import LuaTyping.Proofs.Subtyping.Reuse

/-!
# Leniency with `nil`

A lenient comparison takes `nil` to be below every known type, and it does so before it looks at
alternatives, inside functions on either side, and for parameters that callers leave out. So it goes
another way than a strict comparison: it enters fewer pairs and goes on where the strict one stops.
Still it accepts all that the strict one accepts, if it meets no limit (`accepts_of_strict`).

Where the strict comparison accepts, the lenient one comes along with the same pairs in progress:
both have left what they have entered before. So neither of them takes a pair to hold that the other
would enter (`Looser.guarded`). A strict comparison that rejects, because of a limit or otherwise,
asks nothing of the lenient one.
-/

set_option autoImplicit false

namespace LuaTyping

namespace Guard

variable {κ : Type}

/-- The two guards have the same keys, and room for as many. -/
structure Alongside (guard guard' : Guard κ) : Prop where
  visiting : guard'.visiting = guard.visiting
  depth : guard'.depth = guard.depth

namespace Alongside

variable {guard guard' after after' : Guard κ}

theorem counted (h : Alongside guard guard') : Alongside guard.counted guard'.counted :=
  ⟨h.visiting, h.depth⟩

theorem pushed (h : Alongside guard guard') (key : κ) :
    Alongside (guard.pushed key) (guard'.pushed key) := by
  have depth : guard'.frames.length = guard.frames.length := h.depth
  refine ⟨?_, ?_⟩
  · simp only [Guard.pushed, depth, h.visiting]
  · simp only [Guard.pushed, Guard.depth, List.length_cons, depth]

theorem steady (h : Alongside guard guard') (left : Steady guard after)
    (right : Steady guard' after') : Alongside after after' :=
  ⟨right.visiting.trans (h.visiting.trans left.visiting.symm),
    right.depth.trans (h.depth.trans left.depth.symm)⟩

theorem position? [BEq κ] (h : Alongside guard guard') (key : κ) :
    guard'.position? key = guard.position? key := by
  rw [Guard.position?, Guard.position?, h.visiting]

end Alongside

end Guard

namespace Subtyping

open Guard

/-- Both computations can be repeated, and where the first one accepts, the second one does under
the same keys, unless it meets a limit. -/
structure Looser (run run' : CompareM Id Bool) : Prop where
  left : Repeats run
  right : Repeats run'
  accepts : ∀ guard guard' : Guard Key, guard.maxIterations < Limits.counterMax →
    guard'.maxIterations < Limits.counterMax → Alongside guard guard' →
    (outcome guard' run').2.exceeded = false → (outcome guard run).1 = true →
      (outcome guard' run').1 = true

namespace Looser

variable {run run' first first' second second' : CompareM Id Bool}

theorem answer (result : Bool) : Looser (pure result) (pure result) :=
  ⟨.pure result, .pure result, fun _ _ _ _ _ _ accepted => accepted⟩

/-- What accepts at once is looser than anything. -/
theorem accept (h : Looser run run') : Looser run (pure true) :=
  ⟨h.left, .pure true, fun _ _ _ _ _ _ _ => rfl⟩

theorem lift {α : Type} (asked : Id α) {next next' : α → CompareM Id Bool}
    (each : ∀ answer, Looser (next answer) (next' answer)) :
    Looser (do next (← (liftM asked : CompareM Id α)))
      (do next' (← (liftM asked : CompareM Id α))) :=
  each asked

/-- After the first of two comparisons the guards still go along with each other, and no limit was
met if none is met in the end. -/
theorem after_first (h : Looser first first') {yes no : CompareM Id Bool} (hyes : Repeats yes)
    (hno : Repeats no) {guard guard' : Guard Key} (small : guard.maxIterations < Limits.counterMax)
    (small' : guard'.maxIterations < Limits.counterMax) (alongside : Alongside guard guard')
    (unexceeded : (outcome (outcome guard' first').2
      (if (outcome guard' first').1 then yes else no)).2.exceeded = false) :
    Alongside (outcome guard first).2 (outcome guard' first').2 ∧
      (outcome guard' first').2.exceeded = false := by
  have steady := h.left.steady guard small
  have steady' := h.right.steady guard' small'
  have next (answer : Bool) : Repeats (if answer then yes else no) := by
    cases answer with
    | true => exact hyes
    | false => exact hno
  exact ⟨alongside.steady steady steady',
    ((next _).steady _ (steady'.small small')).unexceeded unexceeded⟩

theorem both (h : Looser first first') (h' : Looser second second') :
    Looser (do if ← first then second else pure false)
      (do if ← first' then second' else pure false) := by
  refine ⟨h.left.branch h'.left (.pure false), h.right.branch h'.right (.pure false), ?_⟩
  intro guard guard' small small' alongside unexceeded accepted
  rw [outcome_branch] at unexceeded accepted ⊢
  obtain ⟨later, unmet⟩ :=
    h.after_first h'.right (.pure false) small small' alongside unexceeded
  cases first_answer : (outcome guard first).1 with
  | false =>
    rw [first_answer] at accepted
    cases accepted
  | true =>
    have first_answer' := h.accepts guard guard' small small' alongside unmet first_answer
    rw [first_answer] at accepted
    rw [first_answer'] at unexceeded ⊢
    exact h'.accepts _ _ ((h.left.steady guard small).small small)
      ((h.right.steady guard' small').small small') later unexceeded accepted

theorem either (h : Looser first first') (h' : Looser second second') :
    Looser (do if ← first then pure true else second)
      (do if ← first' then pure true else second') := by
  refine ⟨h.left.branch (.pure true) h'.left, h.right.branch (.pure true) h'.right, ?_⟩
  intro guard guard' small small' alongside unexceeded accepted
  rw [outcome_branch] at unexceeded accepted ⊢
  obtain ⟨later, unmet⟩ :=
    h.after_first (.pure true) h'.right small small' alongside unexceeded
  cases first_answer' : (outcome guard' first').1 with
  | true => rfl
  | false =>
    -- the strict comparison has rejected the first one as well
    have first_answer : (outcome guard first).1 = false := by
      rw [← Bool.not_eq_true]
      intro accepted
      have := h.accepts guard guard' small small' alongside unmet accepted
      cases this.symm.trans first_answer'
    rw [first_answer] at accepted
    rw [first_answer'] at unexceeded
    exact h'.accepts _ _ ((h.left.steady guard small).small small)
      ((h.right.steady guard' small').small small') later unexceeded accepted

theorem guarded (key : Key) (body : Looser run run') :
    Looser (guarded key run) (guarded key run') := by
  refine ⟨body.left.guarded key, body.right.guarded key, ?_⟩
  intro guard guard' small small' alongside unexceeded accepted
  have same := alongside.position? key
  rcases guard'.enter_cases key with
    ⟨-, why, notEntered, notCycle, henter'⟩ | ⟨-, index, -, henter'⟩ | ⟨-, hpos', henter'⟩
  · rw [outcome_guarded_refused run' notEntered notCycle henter'] at unexceeded
    cases unexceeded
  · rw [outcome_guarded_cycle run' henter']
  · rw [outcome_guarded_entered run' henter'] at unexceeded ⊢
    rw [leave_exceeded] at unexceeded
    rcases guard.enter_cases key with
      ⟨-, why, notEntered, notCycle, henter⟩ | ⟨-, index, hpos, -⟩ | ⟨-, -, henter⟩
    · rw [outcome_guarded_refused run notEntered notCycle henter] at accepted
      cases accepted
    · cases hpos.symm.trans (same.symm.trans hpos')
    · rw [outcome_guarded_entered run henter] at accepted
      exact body.accepts (guard.counted.pushed key) (guard'.counted.pushed key) small small'
        (alongside.counted.pushed key) unexceeded accepted

end Looser

theorem precongruence_looser (resolver : Resolver Id) :
    Precongruence ⟨resolver, true⟩ ⟨resolver, false⟩ Looser where
  supertypes := rfl
  answer := .answer
  both := .both
  either := .either
  lenient h := h.accept
  member _ _ _ _ _ h := .lift _ h

/-- What a strict comparison accepts a lenient one accepts, too, whatever is known about classes,
unless the lenient one meets a limit. Both may come after other comparisons under their guards. -/
theorem accepts_of_strict (resolver : Resolver Id) (a b : Ty) {guard guard' : Guard Key}
    (idle : Idle guard) (idle' : Idle guard')
    (accepted : (outcome guard (compare ⟨resolver, true⟩ a b)).1 = true)
    (unexceeded : (outcome guard' (compare ⟨resolver, false⟩ a b)).2.exceeded = false) :
    (outcome guard' (compare ⟨resolver, false⟩ a b)).1 = true := by
  have looser (levels : Nat) :
      Looser (compareWithin ⟨resolver, true⟩ levels a b)
        (compareWithin ⟨resolver, false⟩ levels a b) :=
    (precongruence_looser resolver).compareWithin (.guarded _) levels a b
  have alongside : Alongside guard guard' :=
    ⟨idle'.visiting.symm.trans idle.visiting, idle'.depth.symm.trans idle.depth⟩
  have levels : guard.maxDepth = guard'.maxDepth := idle.maxDepth.symm.trans idle'.maxDepth
  have strict : (outcome guard (compareWithin ⟨resolver, true⟩ (guard'.maxDepth + 1) a b)).1
      = true := by
    rw [← levels]
    exact accepted
  exact (looser _).accepts guard guard' idle.small idle'.small alongside unexceeded strict

/-- A resolver that knows one member of one class, which is `nil`. -/
def noted : Resolver Id where
  supertypes _ := []
  lookupMember className member :=
    pure (if className == "Point" && member == "note" then some .nil else none)

/-- A function that is content with `nil` and returns a class stands in for one without parameters
that returns a table with a note or none. The lenient comparison does not look at the alternatives
for the note. -/
theorem accepts_of_strict_noted :
    let a := Ty.function [.nil] (.classRef "Point") false []
    let note : Member Ty := ⟨"note", .union [.string, .nil], .publicAccess, false, none⟩
    let b := Ty.function [] (.record [] [note]) false []
    (Idle freshGuard ∧ (outcome freshGuard (compare ⟨noted, true⟩ a b)).1 = true ∧
      (outcome freshGuard (compare ⟨noted, false⟩ a b)).2.exceeded = false) ∧
    (outcome freshGuard (compare ⟨noted, false⟩ a b)).1 = true := by
  intro a note b
  have accepted : (outcome freshGuard (compare ⟨noted, true⟩ a b)).1 = true := by decide +kernel
  have unexceeded : (outcome freshGuard (compare ⟨noted, false⟩ a b)).2.exceeded = false := by
    decide +kernel
  exact ⟨⟨idle_freshGuard, accepted, unexceeded⟩,
    accepts_of_strict noted a b idle_freshGuard idle_freshGuard accepted unexceeded⟩

end Subtyping

end LuaTyping
