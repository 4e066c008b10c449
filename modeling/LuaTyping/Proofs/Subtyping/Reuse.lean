import LuaTyping.Proofs.Subtyping.Congruence

/-!
# One guard for several comparisons

A guard that has served for one comparison can serve for the next. It comes back with nothing
active, and all it remembers is how many attempts it has counted and whether a limit was met. So a
comparison under a used guard answers as it would under an unused one, unless the attempts run out
on the way; and whether they did can be read off the guard afterwards (`Unspent`). That keys may not
be nested too deeply is no matter here, for the two guards have the same keys.

`Repeats` says this of a computation, and it passes through everything comparisons are built from.
Nothing here depends on what is compared, nor on what the resolver says about classes.
-/

set_option autoImplicit false

namespace LuaTyping

namespace Guard

variable {κ : Type}

/-- No limit was met, or not the one on attempts. -/
def Unspent (guard : Guard κ) : Prop := guard.exceeded = false ∨ guard.WithinIterations

theorem Steady.unspent {before after : Guard κ} (steady : Steady before after)
    (h : after.Unspent) : before.Unspent :=
  h.imp steady.unexceeded steady.within

theorem Steady.small {before after : Guard κ} (steady : Steady before after)
    (small : before.maxIterations < Limits.counterMax) :
    after.maxIterations < Limits.counterMax := by
  rw [steady.maxIterations]
  exact small

/-- The second guard has the same keys and limits as the first and has counted no more attempts. -/
structure Fresher (used fresh : Guard κ) : Prop where
  visiting : fresh.visiting = used.visiting
  depth : fresh.depth = used.depth
  maxDepth : fresh.maxDepth = used.maxDepth
  maxIterations : fresh.maxIterations = used.maxIterations
  iterations : fresh.iterations ≤ used.iterations

namespace Fresher

variable {used fresh : Guard κ}

theorem counted (h : Fresher used fresh) : Fresher used.counted fresh.counted := by
  refine ⟨h.visiting, h.depth, h.maxDepth, h.maxIterations, ?_⟩
  have := h.iterations
  simp only [Guard.counted]
  omega

theorem pushed (h : Fresher used fresh) (key : κ) :
    Fresher (used.pushed key) (fresh.pushed key) := by
  have depth : fresh.frames.length = used.frames.length := h.depth
  refine ⟨?_, ?_, h.maxDepth, h.maxIterations, h.iterations⟩
  · simp only [Guard.pushed, depth, h.visiting]
  · simp only [Guard.pushed, Guard.depth, List.length_cons, depth]

theorem lowered (h : Fresher used fresh) (index : Nat) :
    Fresher (used.lowered index) (fresh.lowered index) :=
  ⟨h.visiting, h.depth, h.maxDepth, h.maxIterations, h.iterations⟩

theorem leave [BEq κ] [ReflBEq κ] {key : κ} {index : Nat} {rest : List (κ × Nat)}
    (h : Fresher used fresh) (top : used.visiting = (key, index) :: rest) :
    Fresher (used.leave key).2 (fresh.leave key).2 := by
  have depth : fresh.frames.length = used.frames.length := h.depth
  rw [leave_top top, leave_top (h.visiting.trans top)]
  refine ⟨rfl, ?_, h.maxDepth, h.maxIterations, h.iterations⟩
  simp only [Guard.depth, List.length_tail, depth]

theorem markExceeded (h : Fresher used fresh) :
    Fresher used.markExceeded fresh.markExceeded :=
  ⟨h.visiting, h.depth, h.maxDepth, h.maxIterations, h.iterations⟩

theorem not_overrun (h : Fresher used fresh) (room : ¬ used.Overrun) : ¬ fresh.Overrun := by
  have := h.iterations
  rw [Overrun] at room
  rw [Overrun, h.maxIterations]
  omega

theorem full_iff (h : Fresher used fresh) : fresh.Full ↔ used.Full := by
  rw [Full, Full, h.maxDepth, h.depth]

/-- Where the used guard admits another key, so does the fresh one. -/
theorem not_spent (h : Fresher used fresh) (room : ¬ used.Spent) : ¬ fresh.Spent := by
  obtain ⟨attempts, depth⟩ := not_or.mp room
  exact not_or.mpr ⟨h.not_overrun attempts, mt h.full_iff.mp depth⟩

theorem position? [BEq κ] (h : Fresher used fresh) (key : κ) :
    fresh.position? key = used.position? key := by
  rw [Guard.position?, Guard.position?, h.visiting]

end Fresher

end Guard

namespace Subtyping

open Guard Ty

/-- The computation leaves a guard steady, and unless the attempts run out it goes the same way
under a fresher guard. -/
structure Repeats (run : CompareM Id Bool) : Prop where
  steady : ∀ guard : Guard Key, guard.maxIterations < Limits.counterMax →
    Steady guard (outcome guard run).2
  again : ∀ used fresh : Guard Key, used.maxIterations < Limits.counterMax → Fresher used fresh →
    (outcome used run).2.Unspent →
      (outcome fresh run).1 = (outcome used run).1 ∧
        Fresher (outcome used run).2 (outcome fresh run).2

namespace Repeats

variable {run yes no : CompareM Id Bool}

theorem pure (answer : Bool) : Repeats (pure answer) :=
  ⟨fun guard _ => Steady.refl guard, fun _ _ _ fresher _ => ⟨rfl, fresher⟩⟩

/-- Asking the resolver leaves the guard alone. -/
theorem lift {α : Type} (asked : Id α) {next : α → CompareM Id Bool}
    (each : ∀ answer, Repeats (next answer)) :
    Repeats (do next (← (liftM asked : CompareM Id α))) :=
  each asked

theorem branch (first : Repeats run) (hyes : Repeats yes) (hno : Repeats no) :
    Repeats (do if ← run then yes else no) := by
  have next (answer : Bool) : Repeats (if answer then yes else no) := by
    cases answer with
    | true => exact hyes
    | false => exact hno
  have steady (guard : Guard Key) (small : guard.maxIterations < Limits.counterMax) :
      Steady (outcome guard run).2
        (outcome (outcome guard run).2 (if (outcome guard run).1 then yes else no)).2 :=
    (next _).steady _ ((first.steady guard small).small small)
  refine ⟨fun guard small => ?_, fun used fresh small fresher unspent => ?_⟩
  · rw [outcome_branch]
    exact (first.steady guard small).trans (steady guard small)
  · rw [outcome_branch] at unspent
    have later := steady used small
    obtain ⟨same, fresher⟩ := first.again used fresh small fresher (later.unspent unspent)
    rw [outcome_branch, outcome_branch, same]
    exact (next _).again _ _ ((first.steady used small).small small) fresher unspent

theorem guarded (key : Key) (body : Repeats run) : Repeats (guarded key run) := by
  have pushed_steady (guard : Guard Key) (small : guard.maxIterations < Limits.counterMax) :
      Steady (guard.counted.pushed key) (outcome (guard.counted.pushed key) run).2 :=
    body.steady _ small
  refine ⟨fun guard small => ?_, fun used fresh small fresher unspent => ?_⟩
  · rcases guard.enter_cases key with
      ⟨-, why, notEntered, notCycle, henter⟩ | ⟨-, index, -, henter⟩ | ⟨-, -, henter⟩
    · rw [outcome_guarded_refused run notEntered notCycle henter]
      exact steady_counted small rfl rfl rfl rfl rfl nofun
    · rw [outcome_guarded_cycle run henter]
      exact steady_counted small rfl rfl rfl rfl rfl id
    · rw [outcome_guarded_entered run henter]
      exact steady_leave small (pushed_steady guard small)
  · rcases used.enter_cases key with
      ⟨spent, why, notEntered, notCycle, henter⟩ | ⟨room, index, hpos, henter⟩ |
      ⟨room, hpos, henter⟩
    · rw [outcome_guarded_refused run notEntered notCycle henter] at unspent ⊢
      -- attempts are left, so the key was nested too deeply; under the other guard it is as well
      have within := unspent.resolve_left nofun
      have full := spent.resolve_left (Nat.not_lt.mpr within)
      have henter' := enter_full key (fresher.not_overrun (Nat.not_lt.mpr within))
        (fresher.full_iff.mpr full)
      rw [outcome_guarded_refused run (by decide) (by decide) henter']
      exact ⟨rfl, fresher.counted.markExceeded⟩
    · obtain ⟨iterations, depth⟩ := not_or.mp (fresher.not_spent room)
      have henter' := enter_active iterations depth ((fresher.position? key).trans hpos)
      rw [outcome_guarded_cycle run henter, outcome_guarded_cycle run henter']
      exact ⟨rfl, fresher.counted.lowered index⟩
    · obtain ⟨iterations, depth⟩ := not_or.mp (fresher.not_spent room)
      have henter' := enter_fresh iterations depth ((fresher.position? key).trans hpos)
      have top := (pushed_steady used small).visiting
      rw [outcome_guarded_entered run henter] at unspent ⊢
      rw [outcome_guarded_entered run henter']
      rw [leave_top top] at unspent
      obtain ⟨same, fresher⟩ :=
        body.again (used.counted.pushed key) _ small (fresher.counted.pushed key) unspent
      exact ⟨same, fresher.leave top⟩

end Repeats

/-! ## Comparisons -/

theorem congruence_repeats (rules : Rules Id) :
    Congruence rules rules fun run _ => Repeats run where
  nilStrict := rfl
  supertypes := rfl
  answer := .pure
  branch h hyes hno := .branch h hyes hno
  member _ _ _ _ _ h := .lift _ h

theorem repeats_compareWithin (rules : Rules Id) (levels : Nat) (a b : Ty) :
    Repeats (compareWithin rules levels a b) :=
  (congruence_repeats rules).compareWithin (.guarded _) levels a b

/-! ## Guards between comparisons -/

/-- The guard has nothing active and the limits of a new one, as it has between comparisons. -/
abbrev Idle (guard : Guard Key) : Prop := Fresher guard freshGuard

theorem idle_freshGuard : Idle freshGuard := ⟨rfl, rfl, rfl, rfl, Nat.le_refl _⟩

theorem Idle.steady {before after : Guard Key} (idle : Idle before)
    (steady : Steady before after) : Idle after :=
  ⟨idle.visiting.trans steady.visiting.symm, idle.depth.trans steady.depth.symm,
    idle.maxDepth.trans steady.maxDepth.symm, idle.maxIterations.trans steady.maxIterations.symm,
    Nat.zero_le _⟩

theorem Idle.small {guard : Guard Key} (idle : Idle guard) :
    guard.maxIterations < Limits.counterMax := by
  rw [← idle.maxIterations]
  decide

theorem Idle.steady_compare {guard : Guard Key} (idle : Idle guard) (rules : Rules Id) (a b : Ty) :
    Steady guard (outcome guard (compare rules a b)).2 :=
  (repeats_compareWithin rules (guard.maxDepth + 1) a b).steady guard idle.small

/-- Between comparisons, a guard serves as well as a new one. -/
theorem Idle.answer_compare {guard : Guard Key} (idle : Idle guard) (rules : Rules Id) (a b : Ty)
    (unspent : (outcome guard (compare rules a b)).2.Unspent) :
    (outcome guard (compare rules a b)).1 = Id.run (decideFresh rules a b) := by
  have repeats := repeats_compareWithin rules (guard.maxDepth + 1) a b
  calc (outcome guard (compare rules a b)).1
    _ = (outcome freshGuard (compareWithin rules (guard.maxDepth + 1) a b)).1 :=
      (repeats.again guard freshGuard idle.small idle unspent).1.symm
    _ = (outcome freshGuard (compareWithin rules (freshGuard.maxDepth + 1) a b)).1 := by
      rw [idle.maxDepth]
    _ = Id.run (decideFresh rules a b) := rfl

theorem Idle.settles_compare {guard : Guard Key} (idle : Idle guard) (rules : Rules Id) (a b : Ty) :
    Settles guard False (compare rules a b) (Id.run (decideFresh rules a b) = true) := by
  refine ⟨idle.steady_compare rules a b, fun unexceeded => ?_, False.elim⟩
  rw [idle.answer_compare rules a b (.inl unexceeded)]

end Subtyping

end LuaTyping
