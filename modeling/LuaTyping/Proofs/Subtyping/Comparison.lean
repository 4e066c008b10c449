import LuaTyping.Ty.Subtype
import LuaTyping.Proofs.Guard
import LuaTyping.Proofs.Subtyping.Nesting

/-!
# The guarded comparison decides the relation with assumptions

The comparison keeps the pairs in progress in a guard and takes a pair that is already there to
hold. `Ty.BelowAssuming` says the same in its rule `assumed`, with the guard's keys as what is seen.
This file proves that the two agree, on types without named classes and as long as the guard's
limits are not met.

Every step of the comparison is described in one form, `Settles`: it leaves the guard as it found it
apart from the attempts it counts, and if no limit was met its answer is the truth of a given
proposition. That no limit was met is read off the guard at the end; since the guard does not forget
it, it then held at every point before. The limit on active keys is not met by types nested less
deeply than it, so for these it is enough that the attempts stayed within theirs.
-/

set_option autoImplicit false

namespace LuaTyping

namespace Guard

variable {κ : Type}

/-- The attempts to enter have not passed their limit. -/
def WithinIterations (guard : Guard κ) : Prop := guard.iterations ≤ guard.maxIterations

/-- Between the two states everything that was entered was left, and attempts were only counted
up. -/
structure Steady (before after : Guard κ) : Prop where
  visiting : after.visiting = before.visiting
  depth : after.depth = before.depth
  maxDepth : after.maxDepth = before.maxDepth
  maxIterations : after.maxIterations = before.maxIterations
  within : after.WithinIterations → before.WithinIterations
  unexceeded : after.exceeded = false → before.exceeded = false

theorem Steady.refl (guard : Guard κ) : Steady guard guard := ⟨rfl, rfl, rfl, rfl, id, id⟩

theorem Steady.trans {g₁ g₂ g₃ : Guard κ} (h : Steady g₁ g₂) (h' : Steady g₂ g₃) :
    Steady g₁ g₃ :=
  ⟨h'.visiting.trans h.visiting, h'.depth.trans h.depth, h'.maxDepth.trans h.maxDepth,
    h'.maxIterations.trans h.maxIterations, h.within ∘ h'.within, h.unexceeded ∘ h'.unexceeded⟩

theorem Steady.keys {before after : Guard κ} (h : Steady before after) :
    after.keys = before.keys := by
  rw [Guard.keys, Guard.keys, h.visiting]

end Guard

namespace Subtyping

open Guard Ty

/-- The answer of a comparison that looks nothing up, and the guard it leaves. -/
def outcome (guard : Guard Key) (run : CompareM Id Bool) : Bool × Guard Key :=
  Id.run (run.run guard)

/-- The comparison is steady, and unless it met a limit it answers whether `P` holds. If what it
compares is `shallow` enough, it can only have run out of attempts. -/
structure Settles (guard : Guard Key) (shallow : Prop) (run : CompareM Id Bool) (P : Prop) :
    Prop where
  steady : Steady guard (outcome guard run).2
  answer : (outcome guard run).2.exceeded = false → ((outcome guard run).1 = true ↔ P)
  fine : shallow → guard.exceeded = false → (outcome guard run).2.WithinIterations →
    (outcome guard run).2.exceeded = false

theorem outcome_branch (guard : Guard Key) (run yes no : CompareM Id Bool) :
    outcome guard (do if ← run then yes else no)
      = outcome (outcome guard run).2 (if (outcome guard run).1 then yes else no) := rfl

theorem allM_cons {m : Type → Type} [Monad m] {α : Type} (test : α → CompareM m Bool) (x : α)
    (xs : List α) :
    (x :: xs).allM test = (do if ← test x then xs.allM test else pure false) := by
  rw [List.allM]
  congr
  funext answer
  cases answer <;> rfl

theorem anyM_cons {m : Type → Type} [Monad m] {α : Type} (test : α → CompareM m Bool) (x : α)
    (xs : List α) :
    (x :: xs).anyM test = (do if ← test x then pure true else xs.anyM test) := by
  rw [List.anyM]
  congr
  funext answer
  cases answer <;> rfl

namespace Settles

variable {guard : Guard Key} {shallow P Q R : Prop} {run yes no : CompareM Id Bool}

theorem pure {answer : Bool} (h : answer = true ↔ P) :
    Settles guard shallow (Pure.pure answer) P :=
  ⟨Steady.refl guard, fun _ => h, fun _ unexceeded _ => unexceeded⟩

theorem congr (h : Settles guard shallow run P) (iff : P ↔ Q) : Settles guard shallow run Q :=
  ⟨h.steady, fun w => (h.answer w).trans iff, h.fine⟩

theorem weaken {shallow' : Prop} (h : Settles guard shallow run P) (imp : shallow' → shallow) :
    Settles guard shallow' run P :=
  ⟨h.steady, h.answer, fun s => h.fine (imp s)⟩

/-- One of two comparisons, chosen by the answer of a first one. -/
theorem branch (first : Settles guard shallow run P)
    (hyes : ∀ g, Steady guard g → Settles g shallow yes Q)
    (hno : ∀ g, Steady guard g → Settles g shallow no R) :
    Settles guard shallow (do if ← run then yes else no) (P ∧ Q ∨ ¬ P ∧ R) := by
  have steady := first.steady
  cases hanswer : (outcome guard run).1 with
  | true =>
    have later := hyes _ steady
    refine ⟨?_, ?_, ?_⟩ <;> rw [outcome_branch, hanswer, if_pos rfl]
    · exact steady.trans later.steady
    · intro w
      have hp : P := (first.answer (later.steady.unexceeded w)).mp hanswer
      rw [later.answer w]
      simp [hp]
    · intro s unexceeded w
      exact later.fine s (first.fine s unexceeded (later.steady.within w)) w
  | false =>
    have later := hno _ steady
    refine ⟨?_, ?_, ?_⟩ <;> rw [outcome_branch, hanswer, if_neg Bool.false_ne_true]
    · exact steady.trans later.steady
    · intro w
      have hp : ¬ P := fun hp => by
        have := (first.answer (later.steady.unexceeded w)).mpr hp
        simp [hanswer] at this
      rw [later.answer w]
      simp [hp]
    · intro s unexceeded w
      exact later.fine s (first.fine s unexceeded (later.steady.within w)) w

/-- Both, the second only if the first holds. -/
theorem and (first : Settles guard shallow run P)
    (second : ∀ g, Steady guard g → Settles g shallow yes Q) :
    Settles guard shallow (do if ← run then yes else Pure.pure false) (P ∧ Q) :=
  (branch first second fun _ _ => pure (P := False) (by simp)).congr (by simp)

/-- Either, the second only if the first does not hold. -/
theorem or (first : Settles guard shallow run P)
    (second : ∀ g, Steady guard g → Settles g shallow no Q) :
    Settles guard shallow (do if ← run then Pure.pure true else no) (P ∨ Q) := by
  refine (branch first (fun _ _ => pure (P := True) (by simp)) second).congr ?_
  by_cases hp : P <;> simp [hp]

theorem not (h : Settles guard shallow run P) :
    Settles guard shallow (do return !(← run)) (¬ P) := by
  refine ⟨h.steady, fun w => ?_, h.fine⟩
  have answer : (outcome guard (do return !(← run))).1 = !(outcome guard run).1 := rfl
  rw [answer, Bool.not_eq_true', ← h.answer w, Bool.not_eq_true]

theorem allM {α : Type} {test : α → CompareM Id Bool} {holds : α → Prop} {xs : List α}
    (each : ∀ x ∈ xs, ∀ g, Steady guard g → Settles g shallow (test x) (holds x)) :
    Settles guard shallow (xs.allM test) (∀ x ∈ xs, holds x) := by
  induction xs generalizing guard with
  | nil => exact pure (by simp)
  | cons x xs ih =>
    have first := each x List.mem_cons_self guard (Steady.refl guard)
    have rest : ∀ g, Steady guard g → Settles g shallow (xs.allM test) (∀ y ∈ xs, holds y) :=
      fun g hg => ih fun y mem g' hg' => each y (List.mem_cons_of_mem _ mem) g' (hg.trans hg')
    rw [allM_cons]
    exact (first.and rest).congr List.forall_mem_cons.symm

theorem anyM {α : Type} {test : α → CompareM Id Bool} {holds : α → Prop} {xs : List α}
    (each : ∀ x ∈ xs, ∀ g, Steady guard g → Settles g shallow (test x) (holds x)) :
    Settles guard shallow (xs.anyM test) (∃ x ∈ xs, holds x) := by
  induction xs generalizing guard with
  | nil => exact pure (by simp)
  | cons x xs ih =>
    have first := each x List.mem_cons_self guard (Steady.refl guard)
    have rest : ∀ g, Steady guard g → Settles g shallow (xs.anyM test) (∃ y ∈ xs, holds y) :=
      fun g hg => ih fun y mem g' hg' => each y (List.mem_cons_of_mem _ mem) g' (hg.trans hg')
    rw [anyM_cons]
    exact (first.or rest).congr (by simp)

end Settles

/-! ## The guard -/

/-- Counting an attempt is steady, whatever else it tells the guard about cycles and limits. -/
theorem steady_counted {guard after : Guard Key} (small : guard.maxIterations < Limits.counterMax)
    (visiting : after.visiting = guard.visiting) (frames : after.frames = guard.frames)
    (iterations : after.iterations = guard.counted.iterations)
    (maxDepth : after.maxDepth = guard.maxDepth)
    (maxIterations : after.maxIterations = guard.maxIterations)
    (unexceeded : after.exceeded = false → guard.exceeded = false) : Steady guard after := by
  refine ⟨visiting, congrArg List.length frames, maxDepth, maxIterations, ?_, unexceeded⟩
  rw [WithinIterations, WithinIterations, iterations, maxIterations]
  simp only [counted]
  omega

/-- Leaving the key entered last undoes entering it. -/
theorem steady_leave {guard after : Guard Key} {key : Key}
    (small : guard.maxIterations < Limits.counterMax)
    (steady : Steady (guard.counted.pushed key) after) : Steady guard (after.leave key).2 := by
  have left := leave_top (show after.visiting = (key, guard.depth) :: guard.visiting from
    steady.visiting)
  have depth : after.frames.length = guard.frames.length + 1 := steady.depth
  have counts : Steady guard guard.counted := steady_counted small rfl rfl rfl rfl rfl id
  rw [left]
  refine ⟨rfl, ?_, steady.maxDepth, steady.maxIterations, counts.within ∘ steady.within,
    steady.unexceeded⟩
  simp [Guard.depth, depth]

section Outcomes

variable {guard : Guard Key} {key : Key} (run : CompareM Id Bool)

theorem outcome_guarded_refused {why : Admission} (notEntered : why ≠ .entered)
    (notCycle : why ≠ .cycle) (henter : guard.enter key = (why, guard.counted.markExceeded)) :
    outcome guard (guarded key run) = (false, guard.counted.markExceeded) := by
  cases why <;> simp_all [outcome, guarded]

theorem outcome_guarded_cycle {index : Nat}
    (henter : guard.enter key = (.cycle, guard.counted.lowered index)) :
    outcome guard (guarded key run) = (true, guard.counted.lowered index) := by
  simp [outcome, guarded, henter]

theorem outcome_guarded_entered
    (henter : guard.enter key = (.entered, guard.counted.pushed key)) :
    outcome guard (guarded key run)
      = ((outcome (guard.counted.pushed key) run).1,
          ((outcome (guard.counted.pushed key) run).2.leave key).2) := by
  simp [outcome, guarded, henter]

end Outcomes

theorem Settles.guarded {guard : Guard Key} {key : Key} {shallow P : Prop}
    {run : CompareM Id Bool} (room : shallow → ¬ guard.Full)
    (small : guard.maxIterations < Limits.counterMax)
    (body : ¬ guard.Full → Settles (guard.counted.pushed key) shallow run P) :
    Settles guard shallow (guarded key run) (key ∈ guard.keys ∨ P) := by
  rcases guard.enter_cases key with
    ⟨spent, why, notEntered, notCycle, henter⟩ | ⟨-, index, hpos, henter⟩ | ⟨free, hpos, henter⟩
  -- refused: then nothing is promised, and where there was room the attempts have run out
  · have run_eq := outcome_guarded_refused run notEntered notCycle henter
    refine ⟨?_, ?_, ?_⟩ <;> rw [run_eq]
    · exact steady_counted small rfl rfl rfl rfl rfl nofun
    · exact nofun
    · intro s _ w
      exact absurd w (Nat.not_le.mpr (spent.resolve_right (room s)))
  · have run_eq := outcome_guarded_cycle run henter
    have mem : key ∈ guard.keys := (guard.position?_isSome_iff key).mp (by rw [hpos]; rfl)
    refine ⟨?_, ?_, ?_⟩ <;> rw [run_eq]
    · exact steady_counted small rfl rfl rfl rfl rfl id
    · exact fun _ => ⟨fun _ => .inl mem, fun _ => rfl⟩
    · exact fun _ unexceeded _ => unexceeded
  · have run_eq := outcome_guarded_entered run henter
    have fresh : key ∉ guard.keys := (guard.position?_eq_none_iff key).mp hpos
    have body := body fun full => free (.inr full)
    have left := leave_top (show (outcome (guard.counted.pushed key) run).2.visiting
      = (key, guard.depth) :: guard.visiting from body.steady.visiting)
    refine ⟨?_, ?_, ?_⟩ <;> rw [run_eq]
    · exact steady_leave small body.steady
    · intro w
      rw [left] at w
      rw [body.answer w]
      simp [fresh]
    · intro s unexceeded w
      rw [left] at w ⊢
      exact body.fine s unexceeded w

/-! ## The relation, read from the outside in -/

section Reading

variable {seen : List Key} {a b : Ty} {alts : List Ty}

theorem belowAssuming_union_left :
    BelowAssuming seen (.union alts) b ↔
      Ty.eqv (.union alts) b = true ∨ b.isUnknown = true ∨
        ∀ alt ∈ alts, BelowAssuming seen alt b := by
  constructor
  · intro h
    cases h with
    | equal h => exact .inl h
    | top => exact .inr (.inl rfl)
    | unionLeft h => exact .inr (.inr h)
    | unionRight definite => exact absurd definite (by simp [isDefinite])
    | assumed left => exact absurd left (by simp [isDefinite])
    | shape h => exact absurd h.definite.1 (by simp [isDefinite])
  · rintro (h | h | h)
    · exact .equal h
    · cases b <;> simp [isUnknown] at h
      exact .top _
    · exact .unionLeft h

theorem belowAssuming_union_right (definite : a.isDefinite = true) :
    BelowAssuming seen a (.union alts) ↔ ∃ alt ∈ alts, BelowAssuming seen a alt := by
  constructor
  · intro h
    cases h with
    | equal h => cases a <;> simp [eqv, isDefinite] at h definite
    | unionLeft => exact absurd definite (by simp [isDefinite])
    | unionRight definite mem h => exact ⟨_, mem, h⟩
    | assumed _ right => exact absurd right (by simp [isDefinite])
    | shape h => exact absurd h.definite.2 (by simp [isDefinite])
  · rintro ⟨alt, mem, h⟩
    exact .unionRight definite mem h

theorem belowAssuming_definite (left : a.isDefinite = true) (right : b.isDefinite = true) :
    BelowAssuming seen a b ↔
      a.eqv b = true ∨ (a.outline, b.outline) ∈ seen ∨
        ShapeRule (BelowAssuming ((a.outline, b.outline) :: seen)) a b := by
  constructor
  · intro h
    cases h with
    | equal h => exact .inl h
    | top => exact absurd right (by simp [isDefinite])
    | unionLeft => exact absurd left (by simp [isDefinite])
    | unionRight => exact absurd right (by simp [isDefinite])
    | assumed _ _ mem => exact .inr (.inl mem)
    | shape h parts => exact .inr (.inr (h.mono_parts fun c d _ => parts c d))
  · rintro (h | h | h)
    · exact .equal h
    · exact .assumed left right h
    · exact .shape h fun _ _ h => h

/-- The unknown type is below itself and below nothing else. -/
theorem not_belowAssuming_unknown (h : b.isUnknown = false) :
    ¬ BelowAssuming seen .unknown b := by
  intro hb
  cases hb with
  | equal h' => cases b <;> simp [eqv, isUnknown] at h h'
  | top => simp [isUnknown] at h
  | unionRight definite => simp [isDefinite] at definite
  | assumed left => simp [isDefinite] at left
  | shape h' => exact absurd h'.definite.1 (by simp [isDefinite])

end Reading

/-! ## Shapes -/

/-- The rules of a comparison that knows nothing about classes. -/
def plainRules : Rules Id := ⟨Resolver.blind, true⟩

section Shapes

variable {guard : Guard Key} {deeper : Ty → Ty → CompareM Id Bool} {part : Ty → Ty → Prop}
  {shallow : Prop}

theorem settles_hasMembers {members expected : List (Member Ty)}
    (parts : ∀ found ∈ members, ∀ wanted ∈ expected, ∀ g, Steady guard g →
      Settles g shallow (deeper found.ty wanted.ty) (part found.ty wanted.ty)) :
    Settles guard shallow (hasMembers plainRules deeper none members expected)
      (∀ wanted ∈ expected, ∃ found, findMember? members wanted.name = some found
        ∧ part found.ty wanted.ty) := by
  refine Settles.allM fun wanted mem g hg => ?_
  cases hfound : findMember? members wanted.name with
  | some found =>
    have compared := parts found (List.mem_of_find?_eq_some hfound) wanted mem g hg
    simpa [memberOf, hfound] using compared
  | none =>
    have absent : Settles g shallow (pure false) False := Settles.pure (by simp)
    simpa [memberOf, hfound] using absent

theorem settles_acceptsParams {params expected : List Ty} {variadic : Bool}
    (shared : ∀ pair ∈ expected.zip params, ∀ g, Steady guard g →
      Settles g shallow (deeper pair.1 pair.2) (part pair.1 pair.2))
    (missing : ∀ param ∈ params.drop expected.length, ∀ g, Steady guard g →
      Settles g shallow (deeper .nil param) (part .nil param)) :
    Settles guard shallow (acceptsParams deeper params expected variadic)
      ((∀ pair ∈ expected.zip params, part pair.1 pair.2) ∧
        (variadic = false → ∀ param ∈ params.drop expected.length, part .nil param)) := by
  refine Settles.and (Settles.allM shared) fun g hg => ?_
  cases variadic with
  | true => exact Settles.pure (by simp)
  | false =>
    have rest : Settles g shallow
        ((params.drop expected.length).allM fun param => deeper .nil param)
        (∀ param ∈ params.drop expected.length, part .nil param) :=
      Settles.allM fun param mem g' hg' => missing param mem g' (hg.trans hg')
    exact rest.congr (by simp)

/-! What the rules by shape ask of two types, one lemma for each pair of shapes they apply to. -/

theorem shapeRule_record {supers supers' : List String} {members expected : List (Member Ty)} :
    ShapeRule part (.record supers members) (.record supers' expected) ↔
      ∀ wanted ∈ expected, ∃ found, findMember? members wanted.name = some found
        ∧ part found.ty wanted.ty := by
  constructor
  · intro h wanted mem
    cases h with
    | record has h =>
      obtain ⟨found, hf⟩ := Option.isSome_iff_exists.mp (has wanted mem)
      exact ⟨found, hf, h wanted mem found hf⟩
  · intro h
    refine .record (fun wanted mem => ?_) (fun wanted mem found hf => ?_)
    · obtain ⟨found, hf, -⟩ := h wanted mem
      simp [hf]
    · obtain ⟨found', hf', hp⟩ := h wanted mem
      rw [hf] at hf'
      cases hf'
      exact hp

theorem shapeRule_arrayTable {element : Ty} {supers : List String}
    {expected : List (Member Ty)} :
    ShapeRule part (.array element) (.record supers expected) ↔ expected.isEmpty = true := by
  constructor
  · intro h
    cases h
    rfl
  · intro h
    rw [List.isEmpty_iff.mp h]
    exact .arrayTable element supers

theorem shapeRule_tupleTable {elements : List Ty} {supers : List String}
    {expected : List (Member Ty)} :
    ShapeRule part (.tuple elements) (.record supers expected) ↔ expected.isEmpty = true := by
  constructor
  · intro h
    cases h
    rfl
  · intro h
    rw [List.isEmpty_iff.mp h]
    exact .tupleTable elements supers

theorem shapeRule_array {element element' : Ty} :
    ShapeRule part (.array element) (.array element') ↔ part element element' := by
  refine ⟨fun h => ?_, .array⟩
  cases h with
  | array h => exact h

theorem shapeRule_tupleArray {elements : List Ty} {element' : Ty} :
    ShapeRule part (.tuple elements) (.array element') ↔ ∀ e ∈ elements, part e element' := by
  refine ⟨fun h => ?_, .tupleArray⟩
  cases h with
  | tupleArray h => exact h

theorem shapeRule_tuple {elements elements' : List Ty} :
    ShapeRule part (.tuple elements) (.tuple elements') ↔
      elements.length = elements'.length ∧
        ∀ pair ∈ elements.zip elements', part pair.1 pair.2 := by
  refine ⟨fun h => ?_, fun ⟨len, h⟩ => .tuple len h⟩
  cases h with
  | tuple len h => exact ⟨len, h⟩

theorem shapeRule_function {params params' : List Ty} {ret ret' : Ty} {variadic variadic' : Bool}
    {generics generics' : List String} :
    ShapeRule part (.function params ret variadic generics)
        (.function params' ret' variadic' generics') ↔
      ((∀ pair ∈ params'.zip params, part pair.1 pair.2) ∧
        (variadic' = false → ∀ param ∈ params.drop params'.length, part .nil param)) ∧
        part ret ret' := by
  refine ⟨fun h => ?_, fun ⟨⟨shared, missing⟩, result⟩ => .function shared missing result⟩
  cases h with
  | function shared missing result => exact ⟨⟨shared, missing⟩, result⟩

/-- Comparing by shape follows the rules by shape, if comparing parts follows `part`. -/
theorem settles_compareShapes {a b : Ty} (ha : a.className? = none) (hb : b.className? = none)
    (parts : ∀ c d, PartPair a b c d → ∀ g, Steady guard g →
      Settles g shallow (deeper c d) (part c d)) :
    Settles guard shallow (compareShapes plainRules deeper a b) (ShapeRule part a b) := by
  -- one case for each pair of shapes that the comparison tells apart
  fun_cases compareShapes plainRules deeper a b with
  | case1 text => exact Settles.pure ⟨fun _ => .literal text, fun _ => rfl⟩
  | case2 | case3 | case4 => simp [className?] at ha hb
  | case5 supers members supers' expected =>
    refine (settles_hasMembers fun found hf wanted hw g hg => parts _ _ ?_ g hg).congr
      shapeRule_record.symm
    exact .members rfl rfl (List.mem_map_of_mem hf) (List.mem_map_of_mem hw)
  | case6 element supers expected => exact Settles.pure shapeRule_arrayTable.symm
  | case7 elements supers expected => exact Settles.pure shapeRule_tupleTable.symm
  | case8 element element' =>
    have paired : PartPair (.array element) (.array element') element element' :=
      .straight rfl rfl (by simp [Ty.parts]) (by simp [Ty.parts])
    exact (parts _ _ paired guard (Steady.refl guard)).congr shapeRule_array.symm
  | case9 elements element' =>
    have each : Settles guard shallow (elements.allM fun element => deeper element element')
        (∀ e ∈ elements, part e element') :=
      Settles.allM fun e mem g hg =>
        parts e element' (.straight rfl rfl mem (by simp [Ty.parts])) g hg
    exact each.congr shapeRule_tupleArray.symm
  | case10 elements elements' len =>
    have each : Settles guard shallow
        ((elements.zip elements').allM fun pair => deeper pair.1 pair.2)
        (∀ pair ∈ elements.zip elements', part pair.1 pair.2) :=
      Settles.allM fun pair mem g hg =>
        parts _ _ (.straight rfl rfl (List.of_mem_zip mem).1 (List.of_mem_zip mem).2) g hg
    refine each.congr ⟨fun h => shapeRule_tuple.mpr ⟨eq_of_beq len, h⟩, fun h => ?_⟩
    exact (shapeRule_tuple.mp h).2
  | case11 elements elements' len =>
    refine Settles.pure ⟨fun h => absurd h Bool.false_ne_true, fun h => ?_⟩
    exact absurd (shapeRule_tuple.mp h).1 (by simpa using len)
  | case12 params ret variadic generics params' ret' variadic' generics' =>
    have accepts : Settles guard shallow (acceptsParams deeper params params' variadic')
        ((∀ pair ∈ params'.zip params, part pair.1 pair.2) ∧
          (variadic' = false → ∀ param ∈ params.drop params'.length, part .nil param)) := by
      refine settles_acceptsParams (fun pair mem => parts _ _ (.crossed rfl rfl ?_ ?_))
        (fun param mem => parts _ _ (.missing rfl rfl ?_))
      · exact List.mem_cons_of_mem _ (List.of_mem_zip mem).1
      · exact List.mem_cons_of_mem _ (List.of_mem_zip mem).2
      · exact List.mem_cons_of_mem _ (List.mem_of_mem_drop mem)
    have result := parts ret ret' (.straight rfl rfl List.mem_cons_self List.mem_cons_self)
    exact (accepts.and result).congr shapeRule_function.symm
  | case13 =>
    -- no rule applies: every rule's shapes have been taken by a case above
    refine Settles.pure ⟨fun h => absurd h Bool.false_ne_true, fun h => ?_⟩
    cases h <;> grind

end Shapes

/-! ## Levels -/

/-- There are more levels than the guard has room for keys, and its count of attempts cannot
saturate before it passes the limit. -/
structure Roomy (levels : Nat) (guard : Guard Key) : Prop where
  depth : guard.depth ≤ guard.maxDepth
  levels : guard.maxDepth < guard.depth + levels
  small : guard.maxIterations < Limits.counterMax

theorem Roomy.steady {levels : Nat} {before after : Guard Key} (h : Roomy levels before)
    (steady : Steady before after) : Roomy levels after := by
  refine ⟨?_, ?_, ?_⟩
  · rw [steady.depth, steady.maxDepth]
    exact h.depth
  · rw [steady.depth, steady.maxDepth]
    exact h.levels
  · rw [steady.maxIterations]
    exact h.small

theorem Roomy.pushed {levels : Nat} {guard : Guard Key} (h : Roomy (levels + 1) guard)
    (room : ¬ guard.Full) (key : Key) : Roomy levels (guard.counted.pushed key) := by
  have depth : (guard.counted.pushed key).depth = guard.depth + 1 := rfl
  have maxDepth : (guard.counted.pushed key).maxDepth = guard.maxDepth := rfl
  have := h.levels
  rw [Full] at room
  exact ⟨by omega, by omega, h.small⟩

/-- The guard has room for all keys that comparing the types can need. -/
def RoomFor (guard : Guard Key) (a b : Ty) : Prop :=
  guard.depth + a.nesting < guard.maxDepth ∧ guard.depth + b.nesting < guard.maxDepth

theorem RoomFor.steady {before after : Guard Key} {a b : Ty} (h : RoomFor before a b)
    (steady : Steady before after) : RoomFor after a b := by
  rw [RoomFor, steady.depth, steady.maxDepth]
  exact h

theorem RoomFor.partPair {guard : Guard Key} {a b c d : Ty} (h : RoomFor guard a b)
    (da : a.isDefinite = true) (db : b.isDefinite = true) (pair : PartPair a b c d) (key : Key) :
    RoomFor (guard.counted.pushed key) c d := by
  have depth : (guard.counted.pushed key).depth = guard.depth + 1 := rfl
  have maxDepth : (guard.counted.pushed key).maxDepth = guard.maxDepth := rfl
  obtain ⟨hc, hd⟩ := pair.nesting_lt da db
  obtain ⟨ha, hb⟩ := h
  rw [RoomFor, depth, maxDepth]
  omega

/-- On types without named classes, and under any guard that has no room for more than `levels`
keys, the comparison decides the relation that assumes the guard's keys. -/
def Decides (levels : Nat) (run : Ty → Ty → CompareM Id Bool) : Prop :=
  ∀ (guard : Guard Key) (a b : Ty), Roomy levels guard → a.containsNamed = false →
    b.containsNamed = false →
    Settles guard (RoomFor guard a b) (run a b) (BelowAssuming guard.keys a b)

section Levels

variable {levels : Nat} {deeper : Ty → Ty → CompareM Id Bool}

theorem belowSimple_definite {m : Type → Type} [Monad m] (rules : Rules m)
    (deeper : Ty → Ty → CompareM m Bool) {a b : Ty} (definite : b.isDefinite = true) :
    belowSimple rules deeper a b =
      if a.eqv b then pure true
      else if a.isUnknown then pure false
      else if a.isNil && !rules.nilStrict then pure true
      else guarded (a.outline, b.outline) (compareShapes rules deeper a b) := by
  cases b <;> first | rfl | simp [isDefinite] at definite

theorem isDefinite_of_not_isUnknown {a : Ty} (simple : ∀ alts, a ≠ .union alts)
    (h : a.isUnknown = false) : a.isDefinite = true := by
  cases a <;> simp_all [isDefinite, isUnknown]

/-- Two definite types, one level further in. -/
theorem settles_guarded_shapes (hdeeper : Decides levels deeper) {guard : Guard Key} {a b : Ty}
    (room : Roomy (levels + 1) guard) (ha : a.containsNamed = false)
    (hb : b.containsNamed = false) (da : a.isDefinite = true) (db : b.isDefinite = true) :
    Settles guard (RoomFor guard a b)
      (guarded (a.outline, b.outline) (compareShapes plainRules deeper a b))
      ((a.outline, b.outline) ∈ guard.keys ∨
        ShapeRule (BelowAssuming ((a.outline, b.outline) :: guard.keys)) a b) := by
  have notFull (roomy : RoomFor guard a b) : ¬ guard.Full := fun full => by
    have := roomy.1
    rw [Full] at full
    omega
  refine Settles.guarded notFull room.small fun free => settles_compareShapes
    (className?_of_unnamed ha) (className?_of_unnamed hb) fun c d pair g steady => ?_
  obtain ⟨hc, hd⟩ := pair.unnamed ha hb
  have parts := hdeeper g c d ((room.pushed free _).steady steady) hc hd
  rw [steady.keys] at parts
  exact parts.weaken fun roomy => (roomy.partPair da db pair _).steady steady

theorem settles_belowSimple_definite (hdeeper : Decides levels deeper) {guard : Guard Key}
    {a b : Ty} (room : Roomy (levels + 1) guard) (ha : a.containsNamed = false)
    (hb : b.containsNamed = false) (simple : ∀ alts, a ≠ .union alts)
    (db : b.isDefinite = true) :
    Settles guard (RoomFor guard a b) (belowSimple plainRules deeper a b)
      (BelowAssuming guard.keys a b) := by
  rw [belowSimple_definite plainRules deeper db]
  by_cases heq : a.eqv b = true
  · rw [if_pos heq]
    exact Settles.pure ⟨fun _ => .equal heq, fun _ => rfl⟩
  · rw [if_neg heq]
    cases hunknown : a.isUnknown with
    | true =>
      have ha : a = .unknown := by cases a <;> simp [isUnknown] at hunknown; rfl
      have hb : b.isUnknown = false := by cases b <;> first | rfl | simp [isDefinite] at db
      rw [if_pos rfl, ha]
      exact Settles.pure ⟨fun h => absurd h (by simp),
        fun h => absurd h (not_belowAssuming_unknown hb)⟩
    | false =>
      have da := isDefinite_of_not_isUnknown simple hunknown
      rw [if_neg Bool.false_ne_true, if_neg (by simp [plainRules])]
      refine (settles_guarded_shapes hdeeper room ha hb da db).congr ?_
      rw [belowAssuming_definite da db]
      simp [heq]

theorem RoomFor.alternative_right {guard : Guard Key} {a alt : Ty} {alts : List Ty}
    (h : RoomFor guard a (.union alts)) (mem : alt ∈ alts) : RoomFor guard a alt :=
  ⟨h.1, Nat.lt_of_le_of_lt (Nat.add_le_add_left (nesting_alternative mem) _) h.2⟩

theorem RoomFor.alternative_left {guard : Guard Key} {b alt : Ty} {alts : List Ty}
    (h : RoomFor guard (.union alts) b) (mem : alt ∈ alts) : RoomFor guard alt b :=
  ⟨Nat.lt_of_le_of_lt (Nat.add_le_add_left (nesting_alternative mem) _) h.1, h.2⟩

mutual

theorem settles_belowSimple (hdeeper : Decides levels deeper) {a : Ty}
    (ha : a.containsNamed = false) (simple : ∀ alts, a ≠ .union alts) :
    ∀ (b : Ty) (guard : Guard Key), Roomy (levels + 1) guard → b.containsNamed = false →
      Settles guard (RoomFor guard a b) (belowSimple plainRules deeper a b)
        (BelowAssuming guard.keys a b)
  | .unknown, guard, _, _ => by
    rw [belowSimple]
    exact Settles.pure ⟨fun _ => .top a, fun _ => rfl⟩
  | .union alts, guard, room, hb => by
    rw [belowSimple]
    cases hunknown : a.isUnknown with
    | true =>
      have ha : a = .unknown := by cases a <;> simp [isUnknown] at hunknown; rfl
      rw [if_pos rfl, ha]
      exact Settles.pure ⟨fun h => absurd h (by simp),
        fun h => absurd h (not_belowAssuming_unknown rfl)⟩
    | false =>
      have da := isDefinite_of_not_isUnknown simple hunknown
      rw [if_neg Bool.false_ne_true, if_neg (by simp [plainRules])]
      have any := settles_belowAny hdeeper ha simple alts guard room fun alt mem =>
        anyNode_part (show alt ∈ (Ty.union alts).parts from mem) hb
      refine (any.weaken fun roomy alt mem => ?_).congr (belowAssuming_union_right da).symm
      exact roomy.alternative_right mem
  | .nil, _, room, hb | .boolean, _, room, hb | .number, _, room, hb | .string, _, room, hb
  | .literal _, _, room, hb | .generic _, _, room, hb | .aliasRef _ _, _, room, hb
  | .array _, _, room, hb | .tuple _, _, room, hb | .function _ _ _ _, _, room, hb
  | .named _ _ _, _, room, hb | .record _ _, _, room, hb =>
    settles_belowSimple_definite hdeeper room ha hb simple rfl
termination_by structural b => b

theorem settles_belowAny (hdeeper : Decides levels deeper) {a : Ty}
    (ha : a.containsNamed = false) (simple : ∀ alts, a ≠ .union alts) :
    ∀ (bs : List Ty) (guard : Guard Key), Roomy (levels + 1) guard →
      (∀ b ∈ bs, b.containsNamed = false) →
      Settles guard (∀ b ∈ bs, RoomFor guard a b) (belowAny plainRules deeper a bs)
        (∃ b ∈ bs, BelowAssuming guard.keys a b)
  | [], guard, _, _ => by
    rw [belowAny]
    exact Settles.pure (by simp)
  | b :: rest, guard, room, hb => by
    rw [belowAny]
    have first := settles_belowSimple hdeeper ha simple b guard room (hb b List.mem_cons_self)
    have others : ∀ g, Steady guard g → Settles g (∀ other ∈ b :: rest, RoomFor guard a other)
        (belowAny plainRules deeper a rest) (∃ b ∈ rest, BelowAssuming guard.keys a b) := by
      intro g steady
      rw [← steady.keys]
      have any := settles_belowAny hdeeper ha simple rest g (room.steady steady) fun b mem =>
        hb b (List.mem_cons_of_mem _ mem)
      exact any.weaken fun roomy b mem => (roomy b (List.mem_cons_of_mem _ mem)).steady steady
    have first' := first.weaken fun roomy : ∀ other ∈ b :: rest, RoomFor guard a other =>
      roomy b List.mem_cons_self
    exact (first'.or others).congr (by simp)
termination_by structural bs => bs

end

mutual

theorem settles_below (hdeeper : Decides levels deeper) {b : Ty} (hb : b.containsNamed = false) :
    ∀ (a : Ty) (guard : Guard Key), Roomy (levels + 1) guard → a.containsNamed = false →
      Settles guard (RoomFor guard a b) (below plainRules deeper a b)
        (BelowAssuming guard.keys a b)
  | .union alts, guard, room, ha => by
    rw [below]
    by_cases hend : (Ty.eqv (.union alts) b || b.isUnknown) = true
    · rw [if_pos hend]
      rw [Bool.or_eq_true] at hend
      refine Settles.pure ⟨fun _ => belowAssuming_union_left.mpr ?_, fun _ => rfl⟩
      exact hend.imp_right .inl
    · rw [if_neg hend]
      rw [Bool.or_eq_true, not_or] at hend
      have all := settles_belowAll hdeeper hb alts guard room fun alt mem =>
        anyNode_part (show alt ∈ (Ty.union alts).parts from mem) ha
      refine (all.weaken fun roomy alt mem => ?_).congr ?_
      · exact roomy.alternative_left mem
      · rw [belowAssuming_union_left]
        simp [hend.1, hend.2]
  | .unknown, guard, room, ha | .nil, guard, room, ha | .boolean, guard, room, ha
  | .number, guard, room, ha | .string, guard, room, ha | .literal _, guard, room, ha
  | .generic _, guard, room, ha | .aliasRef _ _, guard, room, ha | .array _, guard, room, ha
  | .tuple _, guard, room, ha | .function _ _ _ _, guard, room, ha
  | .named _ _ _, guard, room, ha | .record _ _, guard, room, ha =>
    settles_belowSimple hdeeper ha (fun _ h => by cases h) b guard room hb
termination_by structural a => a

theorem settles_belowAll (hdeeper : Decides levels deeper) {b : Ty}
    (hb : b.containsNamed = false) :
    ∀ (as : List Ty) (guard : Guard Key), Roomy (levels + 1) guard →
      (∀ a ∈ as, a.containsNamed = false) →
      Settles guard (∀ a ∈ as, RoomFor guard a b) (belowAll plainRules deeper as b)
        (∀ a ∈ as, BelowAssuming guard.keys a b)
  | [], guard, _, _ => by
    rw [belowAll]
    exact Settles.pure (by simp)
  | a :: rest, guard, room, ha => by
    rw [belowAll]
    have first := settles_below hdeeper hb a guard room (ha a List.mem_cons_self)
    have others : ∀ g, Steady guard g → Settles g (∀ other ∈ a :: rest, RoomFor guard other b)
        (belowAll plainRules deeper rest b) (∀ a ∈ rest, BelowAssuming guard.keys a b) := by
      intro g steady
      rw [← steady.keys]
      have all := settles_belowAll hdeeper hb rest g (room.steady steady) fun a mem =>
        ha a (List.mem_cons_of_mem _ mem)
      exact all.weaken fun roomy a mem => (roomy a (List.mem_cons_of_mem _ mem)).steady steady
    have first' := first.weaken fun roomy : ∀ other ∈ a :: rest, RoomFor guard other b =>
      roomy a List.mem_cons_self
    exact (first'.and others).congr (by simp)
termination_by structural as => as

end

/-- One more level of the comparison serves guards with room for one more key. -/
theorem Decides.below (hdeeper : Decides levels deeper) :
    Decides (levels + 1) (below plainRules deeper) :=
  fun guard a _ room ha hb => settles_below hdeeper hb a guard room ha

end Levels

theorem decides_compareWithin (levels : Nat) :
    Decides levels (compareWithin plainRules levels) := by
  induction levels with
  | zero => exact fun _ _ _ room => absurd room.levels (Nat.not_lt.mpr room.depth)
  | succ levels ih => exact ih.below

/-- The guard that a comparison from a fresh one leaves behind. -/
def finalGuard (a b : Ty) : Guard Key := (outcome freshGuard (compare plainRules a b)).2

theorem settles_compare {a b : Ty} (ha : a.containsNamed = false) (hb : b.containsNamed = false) :
    Settles freshGuard (RoomFor freshGuard a b) (compare plainRules a b)
      (BelowAssuming [] a b) := by
  have room : Roomy (freshGuard.maxDepth + 1) freshGuard := ⟨by decide, by decide, by decide⟩
  have settled := decides_compareWithin _ freshGuard a b room ha hb
  exact ⟨settled.steady, settled.answer, settled.fine⟩

/-- Comparing afresh decides the relation without assumptions from outside, unless it meets a
limit. -/
theorem isSubtypeOf_iff_of_unexceeded {a b : Ty} (ha : a.containsNamed = false)
    (hb : b.containsNamed = false) (unexceeded : (finalGuard a b).exceeded = false) :
    a.isSubtypeOf b = true ↔ BelowAssuming [] a b :=
  (settles_compare ha hb).answer unexceeded

/-- Types nested less deeply than the guard admits meet no limit unless they run out of attempts. -/
theorem isSubtypeOf_iff_belowAssuming {a b : Ty}
    (ha : Comparable Profile.subtypeCheck.maxDepth a)
    (hb : Comparable Profile.subtypeCheck.maxDepth b)
    (within : (finalGuard a b).iterations ≤ Profile.subtypeCheck.maxIterations) :
    a.isSubtypeOf b = true ↔ BelowAssuming [] a b := by
  have settled := settles_compare ha.unnamed hb.unnamed
  have limit : (finalGuard a b).maxIterations = Profile.subtypeCheck.maxIterations :=
    settled.steady.maxIterations
  have roomy : RoomFor freshGuard a b :=
    ⟨by simpa [freshGuard, Guard.ofProfile, withLimits, Guard.depth] using ha.nested,
      by simpa [freshGuard, Guard.ofProfile, withLimits, Guard.depth] using hb.nested⟩
  exact isSubtypeOf_iff_of_unexceeded ha.unnamed hb.unnamed
    (settled.fine roomy rfl (Nat.le_trans within (Nat.le_of_eq limit.symm)))

end Subtyping
end LuaTyping
