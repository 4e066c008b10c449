import LuaTyping.Proofs.Subtyping.Reuse

/-!
# Part of the comparisons made again

Comparisons that run one after the other under one guard are made again, but only part of them and
under a guard that has counted no more attempts. Those that are left out only count attempts under
the first guard, so the second one stays behind it; and as long as the first one does not run out of
attempts, every comparison that is made again has the answer that it had. So where testing a list
one by one found nothing, testing part of the list finds nothing either.
-/

set_option autoImplicit false

namespace LuaTyping

/-! ## Attempts are only counted up -/

namespace Guard

variable {κ : Type}

/-- A guard that is fresher than another one is so once the other one has counted more attempts. -/
theorem Fresher.steady {used after fresh : Guard κ} (fresher : Fresher used fresh)
    (steady : Steady used after) (more : used.iterations ≤ after.iterations) :
    Fresher after fresh :=
  ⟨fresher.visiting.trans steady.visiting.symm, fresher.depth.trans steady.depth.symm,
    fresher.maxDepth.trans steady.maxDepth.symm,
    fresher.maxIterations.trans steady.maxIterations.symm,
    Nat.le_trans fresher.iterations more⟩

end Guard

namespace Subtyping

open Guard

/-- The computation takes back no attempt, and the count stays a 32-bit one. -/
def Climbs (run : CompareM Id Bool) : Prop :=
  ∀ guard : Guard Key, guard.iterations ≤ Limits.counterMax →
    guard.iterations ≤ (outcome guard run).2.iterations ∧
      (outcome guard run).2.iterations ≤ Limits.counterMax

namespace Climbs

variable {run yes no : CompareM Id Bool}

theorem pure (answer : Bool) : Climbs (pure answer) :=
  fun _ bounded => ⟨Nat.le_refl _, bounded⟩

theorem branch (first : Climbs run) (hyes : Climbs yes) (hno : Climbs no) :
    Climbs (do if ← run then yes else no) := by
  have next (answer : Bool) : Climbs (if answer then yes else no) := by
    cases answer with
    | true => exact hyes
    | false => exact hno
  intro guard bounded
  obtain ⟨le, bounded⟩ := first guard bounded
  obtain ⟨le', bounded⟩ := next (outcome guard run).1 _ bounded
  rw [outcome_branch]
  exact ⟨Nat.le_trans le le', bounded⟩

theorem guarded (key : Key) (body : Climbs run) : Climbs (guarded key run) := by
  intro guard bounded
  have counted : guard.iterations ≤ guard.counted.iterations ∧
      guard.counted.iterations ≤ Limits.counterMax := by
    simp only [Guard.counted]
    omega
  rcases guard.enter_cases key with
    ⟨-, why, notEntered, notCycle, henter⟩ | ⟨-, index, -, henter⟩ | ⟨-, -, henter⟩
  · rw [outcome_guarded_refused run notEntered notCycle henter]
    exact counted
  · rw [outcome_guarded_cycle run henter]
    exact counted
  · rw [outcome_guarded_entered run henter, leave_iterations]
    obtain ⟨le, bounded⟩ := body (guard.counted.pushed key) counted.2
    exact ⟨Nat.le_trans counted.1 le, bounded⟩

end Climbs

theorem congruence_climbs (rules : Rules Id) :
    Congruence rules rules fun run _ => Climbs run where
  nilStrict := rfl
  supertypes := rfl
  answer := .pure
  branch h hyes hno := h.branch hyes hno
  member _ _ _ _ _ h := h _

/-! ## Making comparisons again -/

/-- The computation goes the same way under a fresher guard, and counts attempts only up. -/
structure Replays (run : CompareM Id Bool) : Prop where
  repeats : Repeats run
  climbs : Climbs run

namespace Replays

variable {run yes no : CompareM Id Bool}

theorem pure (answer : Bool) : Replays (pure answer) := ⟨.pure answer, .pure answer⟩

theorem branch (first : Replays run) (hyes : Replays yes) (hno : Replays no) :
    Replays (do if ← run then yes else no) :=
  ⟨first.repeats.branch hyes.repeats hno.repeats, first.climbs.branch hyes.climbs hno.climbs⟩

theorem not (h : Replays run) : Replays (do return !(← run)) := by
  have turned (guard : Guard Key) : outcome guard (do return !(← run))
      = (!(outcome guard run).1, (outcome guard run).2) := rfl
  refine ⟨⟨h.repeats.steady, fun used fresh small fresher unspent => ?_⟩, h.climbs⟩
  obtain ⟨same, fresher⟩ := h.repeats.again used fresh small fresher unspent
  rw [turned, turned, same]
  exact ⟨rfl, fresher⟩

theorem anyM {α : Type} {test : α → CompareM Id Bool} (each : ∀ x, Replays (test x)) (xs : List α) :
    Replays (xs.anyM test) := by
  induction xs with
  | nil => exact pure false
  | cons x xs ih =>
    rw [anyM_cons]
    exact (each x).branch (pure true) ih

end Replays

theorem outcome_compare (rules : Rules Id) (a b : Ty) (guard : Guard Key) :
    outcome guard (compare rules a b)
      = outcome guard (compareWithin rules (guard.maxDepth + 1) a b) := by
  rw [compare, outcome, outcome, StateT.run_bind, StateT.run_get]
  rfl

theorem replays_compare (rules : Rules Id) (a b : Ty) : Replays (compare rules a b) := by
  refine ⟨⟨fun guard small => ?_, fun used fresh small fresher unspent => ?_⟩, fun guard => ?_⟩
  · rw [outcome_compare]
    exact (repeats_compareWithin rules (guard.maxDepth + 1) a b).steady guard small
  · rw [outcome_compare] at unspent ⊢
    rw [outcome_compare, fresher.maxDepth]
    exact (repeats_compareWithin rules (used.maxDepth + 1) a b).again used fresh small fresher
      unspent
  · rw [outcome_compare]
    exact (congruence_climbs rules).compareWithin (.guarded _) (guard.maxDepth + 1) a b guard

/-- Where the answer is no, it is no for part of the list as well, under a fresher guard. -/
theorem Replays.anyM_sublist {α : Type} {test : α → CompareM Id Bool} {part xs : List α}
    {used fresh : Guard Key} (each : ∀ x, Replays (test x)) (sub : part.Sublist xs)
    (small : used.maxIterations < Limits.counterMax) (bounded : used.iterations ≤ Limits.counterMax)
    (fresher : Fresher used fresh) (no : (outcome used (xs.anyM test)).1 = false)
    (unspent : (outcome used (xs.anyM test)).2.Unspent) :
    (outcome fresh (part.anyM test)).1 = false ∧
      Fresher (outcome used (xs.anyM test)).2 (outcome fresh (part.anyM test)).2 := by
  induction sub generalizing used fresh with
  | slnil => exact ⟨rfl, fresher⟩
  | @cons part xs x sub ih =>
    -- the test is left out, and only the first guard moves on
    have steady := (each x).repeats.steady used small
    obtain ⟨more, bounded⟩ := (each x).climbs used bounded
    rw [anyM_cons, outcome_branch] at no unspent ⊢
    cases answer : (outcome used (test x)).1 with
    | true => rw [answer] at no; cases no
    | false =>
      rw [answer, if_neg Bool.false_ne_true] at no unspent
      rw [if_neg Bool.false_ne_true]
      exact ih (steady.small small) bounded (fresher.steady steady more) no unspent
  | @cons_cons part xs x sub ih =>
    have steady := (each x).repeats.steady used small
    obtain ⟨-, bounded⟩ := (each x).climbs used bounded
    rw [anyM_cons, outcome_branch] at no unspent ⊢
    cases answer : (outcome used (test x)).1 with
    | true => rw [answer] at no; cases no
    | false =>
      rw [answer, if_neg Bool.false_ne_true] at no unspent
      have later := (Replays.anyM each xs).repeats.steady _ (steady.small small)
      obtain ⟨same, fresher⟩ :=
        (each x).repeats.again used fresh small fresher (later.unspent unspent)
      rw [anyM_cons, outcome_branch, same, answer, if_neg Bool.false_ne_true]
      exact ih (steady.small small) bounded fresher no unspent

end Subtyping

end LuaTyping
