import LuaTyping.Proofs.Ty.Maximal

/-!
# No alternative of a union covers another

Collapsing drops an alternative that is below one kept before, or strictly below one that comes
later. For what remains to be free of alternatives that others cover, the order on the types need
not be transitive: of two types that remain, the first is not strictly below the second, or it would
have been dropped when its turn came, and the second is not below the first, or it would have been
when its own came.

All comparisons count their attempts in one guard, so this holds as long as the attempts last
(`unionOf_irredundant`). Once they have run out every comparison of unequal types is refused, and
whatever is left is kept. With enough string literals before the type of strings that happens on the
way, and some of the literals stay beside it (`not_irredundant_words`).
-/

set_option autoImplicit false

namespace LuaTyping

open Ty Subtyping Guard

namespace Union

/-! ## Answers while the attempts last -/

/-- The computation is steady, and unless the attempts run out it answers whether `P` holds. -/
structure Tells (guard : Guard Key) (run : CompareM Id Bool) (P : Prop) : Prop where
  steady : Steady guard (outcome guard run).2
  answer : (outcome guard run).2.WithinIterations → ((outcome guard run).1 = true ↔ P)

namespace Tells

variable {guard : Guard Key} {P Q R : Prop} {run yes no : CompareM Id Bool}

theorem pure {answer : Bool} (h : answer = true ↔ P) : Tells guard (Pure.pure answer) P :=
  ⟨Steady.refl guard, fun _ => h⟩

theorem congr (h : Tells guard run P) (iff : P ↔ Q) : Tells guard run Q :=
  ⟨h.steady, fun within => (h.answer within).trans iff⟩

/-- One of two computations, chosen by the answer of a first one. -/
theorem branch (first : Tells guard run P) (hyes : ∀ g, Steady guard g → Tells g yes Q)
    (hno : ∀ g, Steady guard g → Tells g no R) :
    Tells guard (do if ← run then yes else no) (P ∧ Q ∨ ¬ P ∧ R) := by
  cases hanswer : (outcome guard run).1 with
  | true =>
    have later := hyes _ first.steady
    refine ⟨?_, ?_⟩ <;> rw [outcome_branch, hanswer, if_pos rfl]
    · exact first.steady.trans later.steady
    · intro within
      have hp : P := (first.answer (later.steady.within within)).mp hanswer
      rw [later.answer within]
      simp [hp]
  | false =>
    have later := hno _ first.steady
    refine ⟨?_, ?_⟩ <;> rw [outcome_branch, hanswer, if_neg Bool.false_ne_true]
    · exact first.steady.trans later.steady
    · intro within
      have hp : ¬ P := fun hp => by
        have := (first.answer (later.steady.within within)).mpr hp
        rw [hanswer] at this
        cases this
      rw [later.answer within]
      simp [hp]

theorem not (h : Tells guard run P) : Tells guard (do return !(← run)) (¬ P) := by
  refine ⟨h.steady, fun within => ?_⟩
  have answer : (outcome guard (do return !(← run))).1 = !(outcome guard run).1 := rfl
  rw [answer, Bool.not_eq_true', ← h.answer within, Bool.not_eq_true]

theorem anyM {α : Type} {test : α → CompareM Id Bool} {holds : α → Prop} {xs : List α}
    (each : ∀ x ∈ xs, ∀ g, Steady guard g → Tells g (test x) (holds x)) :
    Tells guard (xs.anyM test) (∃ x ∈ xs, holds x) := by
  induction xs generalizing guard with
  | nil => exact pure (by simp)
  | cons x xs ih =>
    have first := each x List.mem_cons_self guard (Steady.refl guard)
    rw [anyM_cons]
    refine (first.branch (Q := True) (fun _ _ => pure (by simp)) fun g hg =>
      ih fun y mem g' hg' => each y (List.mem_cons_of_mem _ mem) g' (hg.trans hg')).congr ?_
    by_cases hx : holds x <;> simp [hx]

end Tells

/-! ## Collapsing -/

section Collapse

variable {resolver : Resolver Id} {kept later tys : List Ty} {ty : Ty} {guard : Guard Key}

theorem tells_covered (idle : Idle guard) :
    Tells guard (covered ⟨resolver, true⟩ kept later ty)
      ((∃ other ∈ kept, IsBelow resolver ty other) ∨
        ∃ other ∈ later, IsBelow resolver ty other ∧ ¬ IsBelow resolver other ty) := by
  have compared (a b : Ty) (g : Guard Key) (steady : Steady guard g) :
      Tells g (compare ⟨resolver, true⟩ a b) (IsBelow resolver a b) := by
    have idle := idle.steady steady
    refine ⟨idle.steady_compare _ a b, fun within => ?_⟩
    rw [idle.answer_compare _ a b (.inr within), IsBelow]
  have before : Tells guard (kept.anyM fun other => compare ⟨resolver, true⟩ ty other)
      (∃ other ∈ kept, IsBelow resolver ty other) :=
    .anyM fun other _ => compared ty other
  have after (g : Guard Key) (steady : Steady guard g) :
      Tells g (later.anyM fun other => do
          if ← compare ⟨resolver, true⟩ ty other then
            pure !(← compare ⟨resolver, true⟩ other ty)
          else pure false)
        (∃ other ∈ later, IsBelow resolver ty other ∧ ¬ IsBelow resolver other ty) := by
    refine .anyM fun other _ g' steady' => ?_
    have steady := steady.trans steady'
    have back (g'' : Guard Key) (h : Steady g' g'') := (compared other ty g'' (steady.trans h)).not
    refine ((compared ty other g' steady).branch (R := False) back fun _ _ =>
      .pure (by simp)).congr ?_
    simp
  refine (before.branch (Q := True) (fun _ _ => .pure (by simp)) after).congr ?_
  by_cases h : ∃ other ∈ kept, IsBelow resolver ty other <;> simp [h]

/-- No alternative kept is below another one, and none is strictly below a type still to come. -/
structure Settled (resolver : Resolver Id) (kept tys : List Ty) : Prop where
  apart : kept.Pairwise fun x y => ¬ IsBelow resolver x y ∧ ¬ IsBelow resolver y x
  later : ∀ x ∈ kept, ∀ y ∈ tys, IsBelow resolver x y → IsBelow resolver y x

theorem Settled.drop (settled : Settled resolver kept (ty :: later)) :
    Settled resolver kept later :=
  ⟨settled.apart, fun x hx y hy => settled.later x hx y (List.mem_cons_of_mem ty hy)⟩

/-- A type that nothing covers joins the ones that are kept. -/
theorem Settled.keep (settled : Settled resolver kept (ty :: later))
    (notBefore : ¬ ∃ other ∈ kept, IsBelow resolver ty other)
    (notAfter : ¬ ∃ other ∈ later, IsBelow resolver ty other ∧ ¬ IsBelow resolver other ty) :
    Settled resolver (kept ++ [ty]) later := by
  refine ⟨?_, fun x mem y hy le => ?_⟩
  · refine List.pairwise_append.mpr ⟨settled.apart, List.pairwise_singleton _ _, ?_⟩
    intro x hx y hy
    cases List.mem_singleton.mp hy
    have above : ¬ IsBelow resolver ty x := fun le => notBefore ⟨x, hx, le⟩
    exact ⟨mt (settled.later x hx ty List.mem_cons_self) above, above⟩
  · rcases List.mem_append.mp mem with mem | mem
    · exact settled.drop.later x mem y hy le
    · cases List.mem_singleton.mp mem
      by_contra strict
      exact notAfter ⟨y, hy, le, strict⟩

/-- While the attempts last, no two of the types that collapsing keeps are comparable. -/
theorem apart_collapsed (idle : Idle guard) (settled : Settled resolver kept tys)
    (within : (collapsed resolver kept tys guard).2.WithinIterations) :
    (collapsed resolver kept tys guard).1.Pairwise
      fun x y => ¬ IsBelow resolver x y ∧ ¬ IsBelow resolver y x := by
  induction tys generalizing kept guard with
  | nil => exact settled.apart
  | cons ty later ih =>
    have first := @tells_covered resolver kept later ty guard idle
    have idle' := idle.steady first.steady
    rw [collapsed_cons] at within ⊢
    have answer := first.answer ((steady_collapsed idle').within within)
    cases isCovered : (outcome guard (covered ⟨resolver, true⟩ kept later ty)).1 with
    | true =>
      rw [isCovered, if_pos rfl] at within
      rw [if_pos rfl]
      exact ih idle' settled.drop within
    | false =>
      rw [isCovered, if_neg Bool.false_ne_true] at within
      rw [if_neg Bool.false_ne_true]
      rw [isCovered] at answer
      obtain ⟨notBefore, notAfter⟩ := not_or.mp (mt answer.mpr Bool.false_ne_true)
      exact ih idle' (settled.keep notBefore notAfter) within

end Collapse

/-! ## Unions -/

/-- The comparisons made for the union attempt no more entries than the guard they share admits. -/
def AttemptsSuffice (tys : List Ty) : Prop :=
  (collapsed Resolver.blind [] (dropUnknown (flatten tys)) freshGuard).2.WithinIterations

instance (tys : List Ty) : Decidable (AttemptsSuffice tys) :=
  inferInstanceAs (Decidable (_ ≤ _))

theorem sublist_collapsed (resolver : Resolver Id) (kept tys : List Ty) (guard : Guard Key) :
    (collapsed resolver kept tys guard).1.Sublist (kept ++ tys) :=
  (holds_collapse follows_id ⟨resolver, true⟩ kept tys guard).1

/-- The alternatives of a union are the types that collapsing keeps, where any is known. -/
theorem alternatives_unionOf {tys : List Ty} (proper : ∀ ty ∈ tys, ty.Proper)
    (some : knownAlternatives tys ≠ []) :
    (unionOf tys).alternatives
      = (collapsed Resolver.blind [] (dropUnknown (flatten tys)) freshGuard).1 := by
  obtain ⟨within, covers⟩ := dropUnknown_flatten proper some
  have nonempty : dropUnknown (flatten tys) ≠ [] := by
    obtain ⟨alt, mem⟩ := List.exists_mem_of_ne_nil _ some
    obtain ⟨found, found_mem, -⟩ := covers alt mem
    exact List.ne_nil_of_mem found_mem
  have whole : unionOf tys = ofAlternatives
      (collapsed Resolver.blind [] (dropUnknown (flatten tys)) freshGuard).1 :=
    unionWith_eq_ofAlternatives nonempty
  rw [whole]
  refine alternatives_ofAlternatives fun alt mem => ?_
  have flat := (sublist_collapsed Resolver.blind [] _ freshGuard).mem mem
  exact (proper_of_mem_knownAlternatives proper (within alt flat)).2

/-- No alternative of a union is below another one, as long as the comparisons made for it do not
run out of attempts. -/
theorem unionOf_irredundant {tys : List Ty} (proper : ∀ ty ∈ tys, ty.Proper)
    (attempts : AttemptsSuffice tys) :
    (unionOf tys).alternatives.Pairwise
      fun x y => ¬ x.isSubtypeOf y = true ∧ ¬ y.isSubtypeOf x = true := by
  by_cases none : knownAlternatives tys = []
  · have unknown : unionOf tys = .unknown := congrArg Id.run (unionWith_unknown _ none)
    rw [unknown]
    exact List.pairwise_singleton _ _
  · rw [alternatives_unionOf proper none]
    exact apart_collapsed idle_freshGuard ⟨List.Pairwise.nil, List.forall_mem_nil _⟩ attempts

/-- Two functions below each other, of which the first stays, and a literal that a later alternative
covers. -/
theorem unionOf_irredundant_callbacks :
    let tys : List Ty := [.function [] .nil false [], .literal "x", .function [] .nil true [],
      .union [.string, .nil], .unknown]
    (∀ ty ∈ tys, ty.Proper) ∧ AttemptsSuffice tys ∧ (unionOf tys).alternatives.length = 3 ∧
      (unionOf tys).alternatives.Pairwise
        fun x y => ¬ x.isSubtypeOf y = true ∧ ¬ y.isSubtypeOf x = true := by
  intro tys
  have proper : ∀ ty ∈ tys, ty.Proper := by decide
  have attempts : AttemptsSuffice tys := by decide +kernel
  exact ⟨proper, attempts, by decide +kernel, unionOf_irredundant proper attempts⟩

/-! ## When the attempts run out -/

/-- The types are told apart by their outermost shapes, with the given answer. -/
structure Plain (a b : Ty) (answer : Bool) : Prop where
  left : a.isDefinite = true
  right : b.isDefinite = true
  unequal : a.eqv b = false
  shapes : ∀ deeper, compareShapes plainRules deeper a b = pure answer

theorem plain_literals {text other : String} (differ : text ≠ other) :
    Plain (.literal text) (.literal other) false :=
  ⟨rfl, rfl, beq_false_of_ne differ, fun _ => rfl⟩

theorem plain_literal_string (text : String) : Plain (.literal text) .string true :=
  ⟨rfl, rfl, rfl, fun _ => rfl⟩

theorem plain_string_literal (text : String) : Plain .string (.literal text) false :=
  ⟨rfl, rfl, rfl, fun _ => rfl⟩

/-- The guard is idle after as many more attempts. -/
structure Spends (guard : Guard Key) (attempts : Nat) (after : Guard Key) : Prop where
  idle : Idle after
  iterations : after.iterations = min (guard.iterations + attempts) Limits.counterMax

section Spending

variable {guard g g' : Guard Key} {a b ty : Ty} {answer : Bool} {n n' : Nat}

theorem Spends.bounded (h : Spends guard n g) : g.iterations ≤ Limits.counterMax := by
  rw [h.iterations]
  exact Nat.min_le_right _ _

theorem Spends.maxIterations (h : Spends guard n g) (idle : Idle guard) :
    g.maxIterations = guard.maxIterations :=
  h.idle.maxIterations.symm.trans idle.maxIterations

theorem Spends.le (h : Spends guard n g) (bounded : guard.iterations ≤ Limits.counterMax) :
    guard.iterations ≤ g.iterations := by
  rw [h.iterations]
  omega

theorem Spends.trans (h : Spends guard n g) (h' : Spends g n' g') : Spends guard (n + n') g' := by
  refine ⟨h'.idle, ?_⟩
  rw [h'.iterations, h.iterations]
  omega

/-- A plain comparison costs one attempt, and if none is left the answer is no. -/
theorem outcome_compare_plain (idle : Idle guard) (plain : Plain a b answer) :
    ∃ after, Spends guard 1 after ∧
      outcome guard (compare plainRules a b)
        = (answer && decide (guard.iterations < guard.maxIterations), after) := by
  have opened : outcome guard (compare plainRules a b)
      = outcome guard (guarded (a.outline, b.outline) (pure answer)) := by
    have unfolded : outcome guard (compare plainRules a b)
        = outcome guard (below plainRules (compareWithin plainRules guard.maxDepth) a b) := rfl
    have simple : below plainRules (compareWithin plainRules guard.maxDepth) a b
        = belowSimple plainRules (compareWithin plainRules guard.maxDepth) a b := by
      have left := plain.left
      cases a with
      | unknown | union => cases left
      | _ => rfl
    have known : a.isUnknown = false := by
      have left := plain.left
      cases a with
      | unknown | union => cases left
      | _ => rfl
    rw [unfolded, simple, belowSimple_definite _ _ plain.right, plain.unequal, known, plain.shapes]
    simp [plainRules]
  rw [opened]
  have small := idle.small
  by_cases room : guard.iterations < guard.maxIterations
  · have noOverrun : ¬ guard.Overrun := by
      rw [Overrun]
      omega
    have notFull : ¬ guard.Full := by
      rw [Full, ← idle.maxDepth, ← idle.depth]
      decide
    have inactive : guard.position? (a.outline, b.outline) = none := by
      rw [position?, ← idle.visiting]
      rfl
    refine ⟨guard.counted, ⟨idle.steady (steady_counted small rfl rfl rfl rfl rfl id), rfl⟩, ?_⟩
    rw [outcome_guarded_entered _ (enter_fresh noOverrun notFull inactive)]
    have run : outcome (guard.counted.pushed (a.outline, b.outline)) (pure answer)
        = (answer, guard.counted.pushed (a.outline, b.outline)) := rfl
    rw [run, leave_pushed]
    simp [room]
  · have overrun : guard.Overrun := by
      rw [Overrun]
      omega
    refine ⟨guard.counted.markExceeded,
      ⟨idle.steady (steady_counted small rfl rfl rfl rfl rfl Bool.noConfusion), rfl⟩, ?_⟩
    rw [outcome_guarded_refused _ (by decide) (by decide) (enter_overrun _ overrun)]
    simp [room]

/-- Tests that fail at one attempt each are followed by the rest of the list. -/
theorem outcome_anyM_append (test : Ty → CompareM Id Bool) (tys rest : List Ty)
    (idle : Idle guard) (bounded : guard.iterations ≤ Limits.counterMax)
    (each : ∀ ty ∈ tys, ∀ g, Idle g → guard.iterations ≤ g.iterations →
      ∃ after, Spends g 1 after ∧ outcome g (test ty) = (false, after)) :
    ∃ after, Spends guard tys.length after ∧
      outcome guard ((tys ++ rest).anyM test) = outcome after (rest.anyM test) := by
  induction tys generalizing guard with
  | nil => exact ⟨guard, ⟨idle, (Nat.min_eq_left bounded).symm⟩, rfl⟩
  | cons ty later ih =>
    obtain ⟨first, spends, failed⟩ := each ty List.mem_cons_self guard idle (Nat.le_refl _)
    obtain ⟨after, spends', others⟩ := ih spends.idle spends.bounded fun ty mem g idle le =>
      each ty (List.mem_cons_of_mem _ mem) g idle (Nat.le_trans (spends.le bounded) le)
    refine ⟨after, ?_, ?_⟩
    · rw [List.length_cons, Nat.add_comm]
      exact spends.trans spends'
    · rw [List.cons_append, anyM_cons, outcome_branch, failed]
      exact others

end Spending

/-! ## Literals before the type of strings -/

/-- Whether the first type is strictly below the second. -/
def strictly (ty other : Ty) : CompareM Id Bool := do
  if ← compare plainRules ty other then pure !(← compare plainRules other ty) else pure false

theorem covered_eq (kept later : List Ty) (ty : Ty) :
    covered plainRules kept later ty = (do
      if ← kept.anyM (compare plainRules ty) then pure true else later.anyM (strictly ty)) := rfl

section Literals

variable {guard : Guard Key}

/-- A comparison that answers no says no about being strictly below as well. -/
theorem outcome_strictly {ty other : Ty} {after : Guard Key}
    (failed : outcome guard (compare plainRules ty other) = (false, after)) :
    outcome guard (strictly ty other) = (false, after) := by
  rw [strictly, outcome_branch, failed]
  rfl

/-- A literal is strictly below the type of strings if an attempt is left, and for want of one it is
not. -/
theorem outcome_strictly_string (idle : Idle guard) (text : String) :
    (guard.iterations < guard.maxIterations → ∃ after, Spends guard 2 after ∧
      outcome guard (strictly (.literal text) .string) = (true, after)) ∧
    (guard.maxIterations ≤ guard.iterations → ∃ after, Spends guard 1 after ∧
      outcome guard (strictly (.literal text) .string) = (false, after)) := by
  obtain ⟨after, spends, run⟩ := outcome_compare_plain idle (plain_literal_string text)
  refine ⟨fun room => ?_, fun spent => ⟨after, spends, outcome_strictly ?_⟩⟩
  · obtain ⟨last, spends', back⟩ := outcome_compare_plain spends.idle (plain_string_literal text)
    refine ⟨last, spends.trans spends', ?_⟩
    have answer : outcome guard (compare plainRules (.literal text) .string) = (true, after) := by
      rw [run, decide_eq_true room]
      rfl
    have turned : outcome after (do return !(← compare plainRules .string (.literal text)))
        = (true, last) := congrArg (fun r => (!r.1, r.2)) back
    rw [strictly, outcome_branch, answer]
    exact turned
  · rw [run, decide_eq_false (Nat.not_lt.mpr spent)]
    rfl

/-- Of literals that come before the type of strings, the first is covered if there is an attempt
left once it has been compared with the others. -/
theorem outcome_covered_literal (idle : Idle guard)
    (bounded : guard.iterations ≤ Limits.counterMax) {text : String} {texts : List String}
    (new : text ∉ texts) :
    (guard.iterations + texts.length < guard.maxIterations →
      ∃ after, Spends guard (texts.length + 2) after ∧
        outcome guard (covered plainRules [] (texts.map .literal ++ [.string]) (.literal text))
          = (true, after)) ∧
    (guard.maxIterations ≤ guard.iterations + texts.length →
      ∃ after, Spends guard (texts.length + 1) after ∧
        outcome guard (covered plainRules [] (texts.map .literal ++ [.string]) (.literal text))
          = (false, after)) := by
  obtain ⟨middle, spends, run⟩ := outcome_anyM_append (strictly (.literal text))
    (texts.map .literal) [.string] idle bounded fun other mem g idle _ => by
      obtain ⟨name, hname, rfl⟩ := List.mem_map.mp mem
      have differ : text ≠ name := fun same => new (same ▸ hname)
      obtain ⟨after, spends, failed⟩ := outcome_compare_plain idle (plain_literals differ)
      exact ⟨after, spends, outcome_strictly failed⟩
  rw [List.length_map] at spends
  have opened : outcome guard (covered plainRules [] (texts.map .literal ++ [.string])
      (.literal text)) = outcome middle (strictly (.literal text) .string) := by
    rw [covered_eq, outcome_branch]
    refine run.trans ?_
    rw [anyM_cons, outcome_branch]
    rcases outcome middle (strictly (.literal text) .string) with ⟨answer, after⟩
    cases answer <;> rfl
  have count := spends.iterations
  have limits := spends.maxIterations idle
  have small := idle.small
  obtain ⟨ample, scarce⟩ := outcome_strictly_string spends.idle text
  rw [opened]
  refine ⟨fun room => ?_, fun spent => ?_⟩
  · obtain ⟨after, spends', answer⟩ := ample (by omega)
    exact ⟨after, spends.trans spends', answer⟩
  · obtain ⟨after, spends', answer⟩ := scarce (by omega)
    exact ⟨after, spends.trans spends', answer⟩

/-- Once the attempts have run out, everything is kept. -/
theorem collapsed_spent (kept : List Ty) {tys : List Ty} (idle : Idle guard)
    (bounded : guard.iterations ≤ Limits.counterMax)
    (spent : guard.maxIterations ≤ guard.iterations)
    (plain : (kept ++ tys).Pairwise fun x y =>
      (∃ answer, Plain x y answer) ∧ ∃ answer, Plain y x answer) :
    (collapsed Resolver.blind kept tys guard).1 = kept ++ tys := by
  induction tys generalizing kept guard with
  | nil => rw [List.append_nil]; rfl
  | cons ty later ih =>
    have refused (other : Ty) (h : ∃ answer, Plain ty other answer) (g : Guard Key) (idle' : Idle g)
        (le : guard.iterations ≤ g.iterations) :
        ∃ after, Spends g 1 after ∧
          outcome g (compare plainRules ty other) = (false, after) := by
      obtain ⟨answer, h⟩ := h
      obtain ⟨after, spends, run⟩ := outcome_compare_plain idle' h
      have none : ¬ g.iterations < g.maxIterations := by
        rw [← idle'.maxIterations, idle.maxIterations]
        omega
      rw [decide_eq_false none, Bool.and_false] at run
      exact ⟨after, spends, run⟩
    obtain ⟨-, others, across⟩ := List.pairwise_append.mp plain
    obtain ⟨first, spends, run⟩ := outcome_anyM_append (compare plainRules ty) kept [] idle bounded
      fun other mem => refused other (across other mem ty List.mem_cons_self).2
    have more := spends.le bounded
    obtain ⟨last, spends', run'⟩ := outcome_anyM_append (strictly ty) later [] spends.idle
      spends.bounded fun other mem g idle' le => by
        have plain := ((List.pairwise_cons.mp others).1 other mem).1
        obtain ⟨after, spends, failed⟩ := refused other plain g idle' (Nat.le_trans more le)
        exact ⟨after, spends, outcome_strictly failed⟩
    rw [List.append_nil] at run run'
    have uncovered :
        outcome guard (covered ⟨Resolver.blind, true⟩ kept later ty) = (false, last) := by
      show outcome guard (covered plainRules kept later ty) = _
      rw [covered_eq, outcome_branch, run]
      exact run'
    have whole := spends.trans spends'
    have spent' : last.maxIterations ≤ last.iterations := by
      rw [whole.maxIterations idle]
      exact Nat.le_trans spent (whole.le bounded)
    have joined : kept ++ ty :: later = kept ++ [ty] ++ later := List.append_cons kept ty later
    rw [joined] at plain ⊢
    rw [collapsed_cons, uncovered]
    exact ih (kept ++ [ty]) whole.idle whole.bounded spent' plain

/-- The attempts that it takes to drop so many literals before the type of strings. -/
def attemptsFor : Nat → Nat
  | 0 => 0
  | n + 1 => attemptsFor n + n + 2

theorem pairwise_plain {texts : List String} (distinct : texts.Nodup) :
    (texts.map Ty.literal ++ [Ty.string]).Pairwise fun x y =>
      (∃ answer, Plain x y answer) ∧ ∃ answer, Plain y x answer := by
  refine List.pairwise_append.mpr ⟨?_, List.pairwise_singleton _ _, ?_⟩
  · refine List.pairwise_map.mpr (distinct.imp fun differ => ?_)
    exact ⟨⟨_, plain_literals differ⟩, ⟨_, plain_literals (Ne.symm differ)⟩⟩
  · intro x hx y hy
    obtain ⟨text, -, rfl⟩ := List.mem_map.mp hx
    cases List.mem_singleton.mp hy
    exact ⟨⟨_, plain_literal_string text⟩, ⟨_, plain_string_literal text⟩⟩

/-- More literals than the attempts last for are not all dropped before the type of strings. -/
theorem collapsed_literals {texts : List String} (distinct : texts.Nodup) (idle : Idle guard)
    (within : guard.iterations ≤ guard.maxIterations + 1)
    (many : guard.maxIterations + 1 < guard.iterations + attemptsFor texts.length) :
    ∃ left : List String, left ≠ [] ∧
      (collapsed Resolver.blind [] (texts.map .literal ++ [.string]) guard).1
        = left.map .literal ++ [.string] := by
  induction texts generalizing guard with
  | nil => exact absurd many (Nat.not_lt.mpr within)
  | cons text texts ih =>
    obtain ⟨new, distinct'⟩ := List.nodup_cons.mp distinct
    have small := idle.small
    have bounded : guard.iterations ≤ Limits.counterMax := by omega
    obtain ⟨ample, scarce⟩ := outcome_covered_literal idle bounded new
    rw [List.map_cons, List.cons_append, collapsed_cons]
    by_cases room : guard.iterations + texts.length < guard.maxIterations
    · -- the literal is dropped, at one attempt for each literal after it and two more
      obtain ⟨after, spends, run⟩ := ample room
      have limits := spends.maxIterations idle
      have count := spends.iterations
      rw [List.length_cons, attemptsFor] at many
      have within' : after.iterations ≤ after.maxIterations + 1 := by omega
      have many' : after.maxIterations + 1 < after.iterations + attemptsFor texts.length := by omega
      have run : outcome guard (covered ⟨Resolver.blind, true⟩ [] _ _) = (true, after) := run
      rw [run]
      exact ih distinct' spends.idle within' many'
    · obtain ⟨after, spends, run⟩ := scarce (Nat.not_lt.mp room)
      have limits := spends.maxIterations idle
      have count := spends.iterations
      have spent : after.maxIterations ≤ after.iterations := by omega
      have run : outcome guard (covered ⟨Resolver.blind, true⟩ [] _ _) = (false, after) := run
      rw [run]
      refine ⟨text :: texts, List.cons_ne_nil _ _, ?_⟩
      exact collapsed_spent [.literal text] spends.idle spends.bounded spent
        (pairwise_plain distinct)

end Literals

theorem foldl_pushUnique_eq {seen tys : List Ty}
    (apart : (seen ++ tys).Pairwise fun x y => x.eqv y = false) :
    tys.foldl pushUnique seen = seen ++ tys := by
  induction tys generalizing seen with
  | nil => rw [List.append_nil]; rfl
  | cons ty later ih =>
    have new : ty.memOf seen = false := by
      refine List.any_eq_false.mpr fun other mem => ?_
      rw [(List.pairwise_append.mp apart).2.2 other mem ty List.mem_cons_self]
      exact Bool.false_ne_true
    have joined : seen ++ ty :: later = seen ++ [ty] ++ later := List.append_cons seen ty later
    rw [joined] at apart ⊢
    rw [List.foldl_cons, pushUnique, new]
    exact ih apart

/-- Types that are neither unions nor unknown, no two of them equal, are compared as they come. -/
theorem dropUnknown_flatten_eq {tys : List Ty} (definite : ∀ ty ∈ tys, ty.isDefinite = true)
    (apart : tys.Pairwise fun x y => x.eqv y = false) : dropUnknown (flatten tys) = tys := by
  have known (ty : Ty) (mem : ty ∈ tys) : ty.isKnown = true ∧ ty.alternatives = [ty] := by
    have definite := definite ty mem
    cases ty with
    | unknown | union => cases definite
    | _ => exact ⟨rfl, rfl⟩
  have flat : flatten tys = tys := by
    have single : tys.flatMap alternatives = tys := by
      rw [List.flatMap_congr fun ty mem => (known ty mem).2]
      exact List.flatMap_singleton' tys
    rw [flatten, single]
    exact foldl_pushUnique_eq apart
  rw [flat, dropUnknown]
  split
  · exact List.filter_eq_self.mpr fun ty mem => (known ty mem).1
  · rfl

theorem isSubtypeOf_literal_string (text : String) :
    (Ty.literal text).isSubtypeOf .string = true := by
  obtain ⟨after, -, run⟩ := outcome_compare_plain idle_freshGuard (plain_literal_string text)
  have answer : (Ty.literal text).isSubtypeOf .string
      = (outcome freshGuard (compare plainRules (.literal text) .string)).1 := rfl
  rw [answer, run]
  rfl

/-- As many texts as it takes to run out of attempts. -/
def words : List String := (List.range 450).map fun n => String.ofList (List.replicate n 'x')

theorem nodup_words : words.Nodup := by
  refine List.pairwise_map.mpr (List.nodup_range.imp fun differ same => differ ?_)
  have lengths := congrArg String.length same
  simpa using lengths

/-- With more literals before the type of strings than there are attempts for, some of them stay
beside it. -/
theorem not_irredundant_words :
    let tys : List Ty := words.map .literal ++ [.string]
    (∀ ty ∈ tys, ty.Proper) ∧
      ¬ (unionOf tys).alternatives.Pairwise
        fun x y => ¬ x.isSubtypeOf y = true ∧ ¬ y.isSubtypeOf x = true := by
  intro tys
  have each (ty : Ty) (mem : ty ∈ tys) : ty.Proper ∧ ty.isDefinite = true := by
    rcases List.mem_append.mp mem with mem | mem
    · obtain ⟨text, -, rfl⟩ := List.mem_map.mp mem
      exact ⟨⟨⟨rfl, rfl⟩, rfl⟩, rfl⟩
    · cases List.mem_singleton.mp mem
      exact ⟨by decide, rfl⟩
  have flat : dropUnknown (flatten tys) = tys := by
    refine dropUnknown_flatten_eq (fun ty mem => (each ty mem).2) ?_
    exact (pairwise_plain nodup_words).imp fun ⟨⟨_, plain⟩, _⟩ => plain.unequal
  have known : knownAlternatives tys ≠ [] := by
    refine List.ne_nil_of_mem (a := .string) (mem_knownAlternatives.mpr ⟨⟨.string, ?_, ?_⟩, rfl⟩)
    · exact List.mem_append_right _ (List.mem_singleton_self _)
    · exact List.mem_singleton_self _
  obtain ⟨left, nonempty, kept⟩ := collapsed_literals nodup_words idle_freshGuard (by decide) (by
    rw [words, List.length_map, List.length_range]
    decide +kernel)
  refine ⟨fun ty mem => (each ty mem).1, fun apart => ?_⟩
  rw [alternatives_unionOf (fun ty mem => (each ty mem).1) known, flat, kept] at apart
  obtain ⟨text, mem⟩ := List.exists_mem_of_ne_nil left nonempty
  have beside := (List.pairwise_append.mp apart).2.2 (.literal text) (List.mem_map_of_mem mem)
    .string (List.mem_singleton_self _)
  exact beside.1 (isSubtypeOf_literal_string text)

end Union

end LuaTyping
