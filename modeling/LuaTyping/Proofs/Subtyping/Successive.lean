import LuaTyping.Proofs.Subtyping.Replays
import Mathlib.Logic.Function.Iterate

/-!
# Comparisons made one after another

One guard serves for any number of comparisons. Whatever happens inside a comparison, on the way out
every key that was entered has been left, so the stack is as it was, and a cycle that was noted
reached some key on it. Where nothing was active before, nothing is active afterwards, and there is
no position left that a cycle could be noted for (`clear_comparing`). Then nothing but the count of
attempts is passed on, and as long as these last, each comparison has the answer that it has under a
guard of its own (`comparing_reuses`).
-/

set_option autoImplicit false

namespace LuaTyping

namespace Guard

variable {κ : Type}

/-- Nothing is active, and no cycle is noted. -/
structure Clear (guard : Guard κ) : Prop where
  visiting : guard.visiting = []
  frames : guard.frames = []
  cycleFloor : guard.cycleFloor = none

/-- The active keys have their positions on the stack, and a cycle that is noted reached one of
these. -/
structure Grounded (guard : Guard κ) : Prop where
  position : ∀ entry ∈ guard.visiting, entry.2 < guard.depth
  floor : ∀ index, guard.cycleFloor = some index → index < guard.depth

theorem lowest_lt {a b : Option Nat} {depth : Nat} (ha : ∀ index, a = some index → index < depth)
    (hb : ∀ index, b = some index → index < depth) :
    ∀ index, lowest a b = some index → index < depth := by
  intro index h
  cases a with
  | none => exact hb index h
  | some i =>
    cases b with
    | none => exact ha index h
    | some j =>
      obtain rfl := Option.some.inj h
      exact Nat.lt_of_le_of_lt (Nat.min_le_left i j) (ha i rfl)

namespace Grounded

variable {guard : Guard κ}

theorem counted (h : guard.Grounded) : guard.counted.Grounded := ⟨h.position, h.floor⟩

theorem markExceeded (h : guard.Grounded) : guard.markExceeded.Grounded := ⟨h.position, h.floor⟩

theorem lowered (h : guard.Grounded) {index : Nat} (there : index < guard.depth) :
    (guard.lowered index).Grounded :=
  ⟨h.position, lowest_lt h.floor fun _ same => Option.some.inj same ▸ there⟩

/-- A key that is active has a position on the stack. -/
theorem position_lt [BEq κ] [LawfulBEq κ] (h : guard.Grounded) {key : κ} {index : Nat}
    (active : guard.position? key = some index) : index < guard.depth := by
  rw [position?, List.lookup_eq_some_iff] at active
  obtain ⟨before, after, split, -⟩ := active
  exact h.position (key, index) (split ▸ List.mem_append_right before List.mem_cons_self)

/-- What was noted for the position of the key itself is forgotten when the key is left. -/
theorem leave [BEq κ] [ReflBEq κ] (h : guard.Grounded) {after : Guard κ} {key : κ}
    (visiting : after.visiting = (key, guard.depth) :: guard.visiting)
    (frames : after.frames = guard.cycleFloor :: guard.frames) :
    (after.leave key).2.Grounded := by
  rw [leave_top visiting, frames]
  refine ⟨h.position, lowest_lt h.floor fun index noted => ?_⟩
  exact of_decide_eq_true (Option.filter_eq_some_iff.mp noted).2

/-- With nothing on the stack, there is nothing that a cycle could have reached. -/
theorem clear (h : guard.Grounded) (empty : guard.frames = []) : guard.Clear := by
  have depth : guard.depth = 0 := congrArg List.length empty
  refine ⟨List.eq_nil_iff_forall_not_mem.mpr fun entry mem => ?_, empty, ?_⟩
  · have := h.position entry mem
    omega
  · refine Option.eq_none_iff_forall_ne_some.mpr fun index noted => ?_
    have := h.floor index noted
    omega

end Grounded

theorem Clear.grounded {guard : Guard κ} (h : guard.Clear) : guard.Grounded := by
  refine ⟨?_, ?_⟩
  · rw [h.visiting]
    nofun
  · rw [h.cycleFloor]
    nofun

end Guard

namespace Subtyping

open Guard

/-- The computation goes the same way under a fresher guard, gives the stack back as it was, and
notes cycles only for what is on it. -/
structure Restores (run : CompareM Id Bool) : Prop where
  repeats : Repeats run
  frames : ∀ guard : Guard Key, guard.maxIterations < Limits.counterMax →
    (outcome guard run).2.frames = guard.frames
  grounded : ∀ guard : Guard Key, guard.maxIterations < Limits.counterMax → guard.Grounded →
    (outcome guard run).2.Grounded

namespace Restores

variable {run yes no : CompareM Id Bool}

theorem pure (answer : Bool) : Restores (pure answer) :=
  ⟨.pure answer, fun _ _ => rfl, fun _ _ grounded => grounded⟩

theorem branch (first : Restores run) (hyes : Restores yes) (hno : Restores no) :
    Restores (do if ← run then yes else no) := by
  have next (answer : Bool) : Restores (if answer then yes else no) := by
    cases answer with
    | true => exact hyes
    | false => exact hno
  refine ⟨first.repeats.branch hyes.repeats hno.repeats, fun guard small => ?_,
    fun guard small grounded => ?_⟩
  · have small' := (first.repeats.steady guard small).small small
    rw [outcome_branch, (next _).frames _ small', first.frames guard small]
  · have small' := (first.repeats.steady guard small).small small
    rw [outcome_branch]
    exact (next _).grounded _ small' (first.grounded guard small grounded)

theorem guarded (key : Key) (body : Restores run) : Restores (guarded key run) := by
  have visiting (guard : Guard Key) (small : guard.maxIterations < Limits.counterMax) :
      (outcome (guard.counted.pushed key) run).2.visiting
        = (key, guard.depth) :: guard.visiting :=
    (body.repeats.steady (guard.counted.pushed key) small).visiting
  have frames (guard : Guard Key) (small : guard.maxIterations < Limits.counterMax) :
      (outcome (guard.counted.pushed key) run).2.frames = guard.cycleFloor :: guard.frames :=
    body.frames (guard.counted.pushed key) small
  refine ⟨body.repeats.guarded key, fun guard small => ?_, fun guard small grounded => ?_⟩
  · rcases guard.enter_cases key with
      ⟨-, why, notEntered, notCycle, henter⟩ | ⟨-, index, -, henter⟩ | ⟨-, -, henter⟩
    · rw [outcome_guarded_refused run notEntered notCycle henter]
      rfl
    · rw [outcome_guarded_cycle run henter]
      rfl
    · rw [outcome_guarded_entered run henter, leave_top (visiting guard small), frames guard small]
      rfl
  · rcases guard.enter_cases key with
      ⟨-, why, notEntered, notCycle, henter⟩ | ⟨-, index, active, henter⟩ | ⟨-, -, henter⟩
    · rw [outcome_guarded_refused run notEntered notCycle henter]
      exact grounded.counted.markExceeded
    · rw [outcome_guarded_cycle run henter]
      exact grounded.counted.lowered (grounded.position_lt active)
    · rw [outcome_guarded_entered run henter]
      exact grounded.leave (visiting guard small) (frames guard small)

end Restores

theorem congruence_restores (rules : Rules Id) :
    Congruence rules rules fun run _ => Restores run where
  nilStrict := rfl
  supertypes := rfl
  answer := .pure
  branch h hyes hno := h.branch hyes hno
  member _ _ _ _ _ h := h _

theorem restores_compare (rules : Rules Id) (a b : Ty) : Restores (compare rules a b) := by
  have within (levels : Nat) : Restores (compareWithin rules levels a b) :=
    (congruence_restores rules).compareWithin (.guarded _) levels a b
  refine ⟨(replays_compare rules a b).repeats, fun guard small => ?_,
    fun guard small grounded => ?_⟩
  · rw [outcome_compare]
    exact (within _).frames guard small
  · rw [outcome_compare]
    exact (within _).grounded guard small grounded

/-! ## Any number of comparisons -/

/-- The answers of comparisons that are made one after another, and the guard after the last. -/
def comparing (rules : Rules Id) (calls : List (Ty × Ty)) (guard : Guard Key) :
    List Bool × Guard Key :=
  Id.run ((calls.mapM fun call => compare rules call.1 call.2).run guard)

theorem comparing_cons (rules : Rules Id) (call : Ty × Ty) (calls : List (Ty × Ty))
    (guard : Guard Key) :
    comparing rules (call :: calls) guard
      = ((outcome guard (compare rules call.1 call.2)).1
            :: (comparing rules calls (outcome guard (compare rules call.1 call.2)).2).1,
          (comparing rules calls (outcome guard (compare rules call.1 call.2)).2).2) := by
  rw [comparing, List.mapM_cons]
  rfl

theorem steady_comparing (rules : Rules Id) (calls : List (Ty × Ty)) {guard : Guard Key}
    (small : guard.maxIterations < Limits.counterMax) :
    Steady guard (comparing rules calls guard).2 := by
  induction calls generalizing guard with
  | nil => exact Steady.refl guard
  | cons call calls ih =>
    have steady := (restores_compare rules call.1 call.2).repeats.steady guard small
    rw [comparing_cons]
    exact steady.trans (ih (steady.small small))

theorem clear_comparing (rules : Rules Id) (calls : List (Ty × Ty)) {guard : Guard Key}
    (small : guard.maxIterations < Limits.counterMax) (clear : guard.Clear) :
    (comparing rules calls guard).2.Clear := by
  induction calls generalizing guard with
  | nil => exact clear
  | cons call calls ih =>
    have restores := restores_compare rules call.1 call.2
    have grounded := restores.grounded guard small clear.grounded
    rw [comparing_cons]
    refine ih ((restores.repeats.steady guard small).small small) (grounded.clear ?_)
    rw [restores.frames guard small, clear.frames]

/-- Comparisons under an idle guard have the answers they have under unused ones. -/
theorem answers_comparing (rules : Rules Id) (calls : List (Ty × Ty)) {guard : Guard Key}
    (idle : Idle guard) (within : (comparing rules calls guard).2.WithinIterations) :
    (comparing rules calls guard).1
      = calls.map fun call => Id.run (decideFresh rules call.1 call.2) := by
  induction calls generalizing guard with
  | nil => rfl
  | cons call calls ih =>
    have steady := idle.steady_compare rules call.1 call.2
    rw [comparing_cons] at within ⊢
    have later := steady_comparing rules calls (steady.small idle.small)
    rw [idle.answer_compare rules call.1 call.2 (.inr (later.within within)),
      ih (idle.steady steady) within, List.map_cons]

theorem clear_freshGuard : freshGuard.Clear := ⟨rfl, rfl, rfl⟩

/-- After each of any number of comparisons under one guard nothing is active and no cycle is noted,
and unless the attempts run out on the way, each has the answer that it has under a new guard. -/
theorem comparing_reuses (rules : Rules Id) (calls : List (Ty × Ty)) :
    (∀ earlier, earlier <+: calls → (comparing rules earlier freshGuard).2.Clear) ∧
      ((comparing rules calls freshGuard).2.WithinIterations →
        (comparing rules calls freshGuard).1
          = calls.map fun call => Id.run (decideFresh rules call.1 call.2)) :=
  ⟨fun earlier _ => clear_comparing rules earlier (by decide) clear_freshGuard,
    answers_comparing rules calls idle_freshGuard⟩

/-- The class of list cells, each with a next one. -/
def cells : Resolver Id where
  supertypes _ := []
  lookupMember className member :=
    pure (if className == "Cell" && member == "next" then some (.classRef "Cell") else none)

/-- A cell has a next one, and for that the comparison runs in a circle; a literal in 101 arrays is
out of reach. The third comparison is the first one again. -/
theorem comparing_reuses_cells :
    let next (ty : Ty) := Ty.record [] [.ofTy "next" ty]
    let circle := (Ty.classRef "Cell", next (next .number))
    let buried := (Ty.array^[101] (.literal "ok"), Ty.array^[101] .string)
    let calls := [circle, buried, circle, (.classRef "Cell", .number)]
    ([circle, buried] <+: calls ∧ (comparing ⟨cells, true⟩ [circle, buried] freshGuard).2.Clear) ∧
      (comparing ⟨cells, true⟩ calls freshGuard).2.WithinIterations ∧
      (comparing ⟨cells, true⟩ calls freshGuard).1
        = calls.map (fun call => Id.run (decideFresh ⟨cells, true⟩ call.1 call.2)) ∧
      (comparing ⟨cells, true⟩ calls freshGuard).1 = [true, false, true, false] := by
  intro next circle buried calls
  have earlier : [circle, buried] <+: calls := ⟨_, rfl⟩
  have run : (comparing ⟨cells, true⟩ calls freshGuard).1 = [true, false, true, false] ∧
      (comparing ⟨cells, true⟩ calls freshGuard).2.iterations
        ≤ (comparing ⟨cells, true⟩ calls freshGuard).2.maxIterations := by decide +kernel
  have reuses := comparing_reuses ⟨cells, true⟩ calls
  exact ⟨⟨earlier, reuses.1 _ earlier⟩, run.2, reuses.2 run.2, run.1⟩

end Subtyping

end LuaTyping
