import LuaTyping.Proofs.Infer.Alike
import LuaTyping.Proofs.Infer.Resolved
import Mathlib.Logic.Function.Iterate

/-!
# Comparisons come to an end

A comparison may look a member up by name, and so it does not end for the sake of the types alone.
It ends because each level enters the guard: a guard with room for `n` more keys is entered at most
`n` times inside itself, and beyond that nothing is compared. So what stands below the last level
never matters (`compare_eq_iterate`). On the way every key that was entered is left again
(`Kept`), whatever is answered to the questions in between.
-/

set_option autoImplicit false

namespace LuaTyping

/-- The guard has the same keys active as before. -/
structure Guard.Restored {κ : Type} (before after : Guard κ) : Prop where
  visiting : after.visiting = before.visiting
  frames : after.frames = before.frames
  maxDepth : after.maxDepth = before.maxDepth

theorem Guard.Restored.refl {κ : Type} (guard : Guard κ) : guard.Restored guard := ⟨rfl, rfl, rfl⟩

theorem Guard.Restored.trans {κ : Type} {g₁ g₂ g₃ : Guard κ} (h : g₁.Restored g₂)
    (h' : g₂.Restored g₃) : g₁.Restored g₃ :=
  ⟨h'.visiting.trans h.visiting, h'.frames.trans h.frames, h'.maxDepth.trans h.maxDepth⟩

namespace Infer

open Subtyping

variable {κ α β : Type}

/-- Whatever is answered to its questions, the plan gives a good answer. -/
abbrev Plan.Always (good : α → Prop) (plan : Plan κ α) : Prop :=
  plan.Yields (fun _ _ => True) good

/-- Plans go on alike if they do so after all that the first part can give. -/
theorem Plan.Always.bind_congr {good : α → Prop} {plan : Plan κ α} {next next' : α → Plan κ β}
    (h : plan.Always good) (same : ∀ answer, good answer → next answer = next' answer) :
    plan >>= next = plan >>= next' := by
  induction plan with
  | done answer => exact same answer h
  | note name plan ih => exact congrArg (Plan.note name) (ih h)
  | ask question plan ih =>
    exact congrArg (Plan.ask question) (funext fun ty => ih ty (h ty trivial))

/-- Asking a question leaves the guard alone. -/
theorem lift_bind_apply (asked : Plan κ α) (next : α → CompareM (Plan κ) β) (guard : Guard Key) :
    ((liftM asked : CompareM (Plan κ) α) >>= next) guard
      = asked >>= fun answer => next answer guard := by
  show (asked >>= fun answer => pure (answer, guard)) >>= (fun r => next r.1 r.2) = _
  rw [bind_assoc]
  rfl

/-- A comparison under the guard is refused, with the same keys active as before, or it is made one
key deeper. -/
theorem guarded_cases (key : Key) (guard : Guard Key) :
    (∃ answer after, guard.Restored after ∧
      ∀ run : CompareM (Plan κ) Bool, guarded key run guard = .done (answer, after)) ∨
    (guard.depth < guard.maxDepth ∧
      ∀ run : CompareM (Plan κ) Bool, guarded key run guard
        = run (guard.counted.pushed key) >>= fun r => .done (r.1, (r.2.leave key).2)) := by
  rcases guard.enter_cases key with
    ⟨-, why, denied, other, answered⟩ | ⟨-, index, -, answered⟩ | ⟨room, -, answered⟩
  · refine .inl ⟨false, guard.counted.markExceeded, ⟨rfl, rfl, rfl⟩, fun run => ?_⟩
    show (guarded key run).run guard = pure (false, guard.counted.markExceeded)
    cases why <;> simp_all [guarded]
  · refine .inl ⟨true, guard.counted.lowered index, ⟨rfl, rfl, rfl⟩, fun run => ?_⟩
    show (guarded key run).run guard = pure (true, guard.counted.lowered index)
    simp [guarded, answered]
  · refine .inr ⟨Nat.lt_of_not_le fun full => room (.inr full), fun run => ?_⟩
    show (guarded key run).run guard
      = run.run (guard.counted.pushed key) >>= fun r => pure (r.1, (r.2.leave key).2)
    simp [guarded, answered]

/-! ## Keys are left again -/

/-- The comparison leaves every key that it enters. -/
def Restoring (run : CompareM (Plan κ) Bool) : Prop :=
  ∀ guard : Guard Key, (run guard).Always fun r => guard.Restored r.2

namespace Restoring

variable {run yes no : CompareM (Plan κ) Bool}

theorem pure (answer : Bool) : Restoring (κ := κ) (pure answer) :=
  fun guard => Guard.Restored.refl guard

theorem branch (first : Restoring run) (hyes : Restoring yes) (hno : Restoring no) :
    Restoring (do if ← run then yes else no) := by
  intro guard
  refine (first guard).bind fun ⟨answer, after⟩ restored => ?_
  have next : ((if answer then yes else no) after).Always fun r => after.Restored r.2 := by
    cases answer with
    | true => exact hyes after
    | false => exact hno after
  exact next.weaken fun _ restored' => restored.trans restored'

theorem lift (asked : Plan κ α) {next : α → CompareM (Plan κ) Bool}
    (each : ∀ answer, Restoring (next answer)) :
    Restoring (do next (← (liftM asked : CompareM (Plan κ) α))) := by
  intro guard
  rw [lift_bind_apply]
  exact (Plan.Yields.any asked).bind fun answer _ => each answer guard

theorem guarded (key : Key) (body : Restoring run) : Restoring (guarded key run) := by
  intro guard
  rcases guarded_cases key guard with ⟨answer, after, restored, refused⟩ | ⟨-, entered⟩
  · rw [refused]
    exact restored
  · rw [entered]
    refine (body _).bind fun ⟨answer, after⟩ restored => ?_
    have left := Guard.leave_top (show after.visiting = (key, guard.depth) :: guard.visiting from
      restored.visiting)
    show guard.Restored (after.leave key).2
    rw [left]
    exact ⟨rfl, congrArg List.tail restored.frames, restored.maxDepth⟩

end Restoring

theorem congruence_restoring (rules : Rules (Plan κ)) :
    Congruence rules rules fun run _ => Restoring run where
  nilStrict := rfl
  supertypes := rfl
  answer := .pure
  branch h hyes hno := .branch h hyes hno
  member _ _ _ _ _ h := .lift _ h

theorem restoring_compareWithin (rules : Rules (Plan κ)) (levels : Nat) (a b : Ty) :
    Restoring (compareWithin rules levels a b) :=
  (congruence_restoring rules).compareWithin (.guarded _) levels a b

/-! ## Levels are not used up -/

/-- There are levels for all the keys that the guard still admits. -/
structure Room (levels : Nat) (guard : Guard Key) : Prop where
  within : guard.depth ≤ guard.maxDepth
  enough : guard.maxDepth < levels + guard.depth

theorem Room.restored {levels : Nat} {before after : Guard Key} (h : Room levels before)
    (restored : before.Restored after) : Room levels after := by
  have depth : after.depth = before.depth := congrArg List.length restored.frames
  constructor
  · rw [depth, restored.maxDepth]
    exact h.within
  · rw [depth, restored.maxDepth]
    exact h.enough

theorem Room.pushed {levels : Nat} {guard : Guard Key} (h : Room (levels + 1) guard)
    (room : guard.depth < guard.maxDepth) (key : Key) : Room levels (guard.counted.pushed key) := by
  have depth : (guard.counted.pushed key).depth = guard.depth + 1 := rfl
  have limit : (guard.counted.pushed key).maxDepth = guard.maxDepth := rfl
  have := h.enough
  constructor <;> omega

/-- The first comparison leaves the keys that it enters, and the second goes the same way wherever
there are levels enough for both. -/
structure SameWithin (levels more : Nat) (run run' : CompareM (Plan κ) Bool) : Prop where
  restoring : Restoring run
  same : ∀ guard, Room levels guard → Room more guard → run guard = run' guard

namespace SameWithin

variable {levels more : Nat} {run run' yes yes' no no' : CompareM (Plan κ) Bool}

theorem pure (answer : Bool) : SameWithin (κ := κ) levels more (pure answer) (pure answer) :=
  ⟨.pure answer, fun _ _ _ => rfl⟩

theorem branch (first : SameWithin levels more run run') (hyes : SameWithin levels more yes yes')
    (hno : SameWithin levels more no no') :
    SameWithin levels more (do if ← run then yes else no) (do if ← run' then yes' else no') := by
  refine ⟨.branch first.restoring hyes.restoring hno.restoring, fun guard room room' => ?_⟩
  show (run guard >>= fun r => (if r.1 then yes else no) r.2)
    = run' guard >>= fun r => (if r.1 then yes' else no') r.2
  rw [← first.same guard room room']
  refine (first.restoring guard).bind_congr fun ⟨answer, after⟩ restored => ?_
  cases answer with
  | true => exact hyes.same after (room.restored restored) (room'.restored restored)
  | false => exact hno.same after (room.restored restored) (room'.restored restored)

theorem lift (asked : Plan κ α) {next next' : α → CompareM (Plan κ) Bool}
    (each : ∀ answer, SameWithin levels more (next answer) (next' answer)) :
    SameWithin levels more (do next (← (liftM asked : CompareM (Plan κ) α)))
      (do next' (← (liftM asked : CompareM (Plan κ) α))) := by
  refine ⟨.lift asked fun answer => (each answer).restoring, fun guard room room' => ?_⟩
  rw [lift_bind_apply, lift_bind_apply]
  exact congrArg (asked >>= ·) (funext fun answer => (each answer).same guard room room')

/-- Under the guard one level less is enough. -/
theorem guarded (key : Key) (h : SameWithin levels more run run') :
    SameWithin (levels + 1) (more + 1) (guarded key run) (guarded key run') := by
  refine ⟨.guarded key h.restoring, fun guard room room' => ?_⟩
  rcases guarded_cases key guard with ⟨answer, after, -, refused⟩ | ⟨deeper, entered⟩
  · rw [refused, refused]
  · rw [entered, entered, h.same _ (room.pushed deeper key) (room'.pushed deeper key)]

end SameWithin

theorem congruence_sameWithin (rules : Rules (Plan κ)) (levels more : Nat) :
    Congruence rules rules (SameWithin levels more) where
  nilStrict := rfl
  supertypes := rfl
  answer := .pure
  branch h hyes hno := .branch h hyes hno
  member _ _ _ _ _ h := .lift _ h

/-- A comparison goes the same way whatever stands below the last level, if there are enough. -/
theorem sameWithin_iterate (rules : Rules (Plan κ)) (rest : Ty → Ty → CompareM (Plan κ) Bool)
    (levels more : Nat) (a b : Ty) :
    SameWithin more levels (compareWithin rules more a b) ((below rules)^[levels] rest a b) := by
  induction levels generalizing more a b with
  | zero =>
    refine ⟨restoring_compareWithin rules more a b, fun guard _ none_left => ?_⟩
    have := none_left.within
    have := none_left.enough
    omega
  | succ levels ih =>
    cases more with
    | zero =>
      refine ⟨.pure false, fun guard none_left _ => ?_⟩
      have := none_left.within
      have := none_left.enough
      omega
    | succ more =>
      rw [Function.iterate_succ_apply']
      exact (congruence_sameWithin rules (more + 1) (levels + 1)).below
        (congruence_sameWithin rules more levels) (ih more) (.guarded _) a b

/-- The recursion of a comparison, followed down as many levels as the guard admits keys, does not
come to what stands further below. -/
theorem compare_eq_iterate (rules : Rules (Plan κ)) (rest : Ty → Ty → CompareM (Plan κ) Bool)
    (a b : Ty) {guard : Guard Key} (within : guard.depth ≤ guard.maxDepth) :
    compare rules a b guard = (below rules)^[guard.maxDepth + 1] rest a b guard := by
  have room : Room (guard.maxDepth + 1) guard := ⟨within, by omega⟩
  exact (sameWithin_iterate rules rest (guard.maxDepth + 1) (guard.maxDepth + 1) a b).same guard
    room room

end Infer

end LuaTyping
