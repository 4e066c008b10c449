import LuaTyping.Guard.Basic

/-!
# What entering and leaving do

An attempt to enter has four outcomes, and each changes the guard in one way only. The four are
stated here as equations, in terms of the guard after the attempt is *counted* and of the guard with
a key *pushed*. Everything about guards elsewhere goes through these equations and the one for
leaving the innermost key; none of it opens `enter` or `leave` again.
-/

set_option autoImplicit false

namespace LuaTyping.Guard

variable {κ : Type}

/-! ## The parts of an attempt -/

/-- The guard after one more attempt. -/
def counted (guard : Guard κ) : Guard κ :=
  { guard with iterations := min (guard.iterations + 1) Limits.counterMax }

/-- The guard with `key` on top of its stack. -/
def pushed (guard : Guard κ) (key : κ) : Guard κ :=
  { guard with
    visiting := (key, guard.frames.length) :: guard.visiting
    frames := guard.cycleFloor :: guard.frames
    cycleFloor := none }

/-- The guard with a cycle noticed that reaches out to a position. -/
def lowered (guard : Guard κ) (index : Nat) : Guard κ :=
  { guard with cycleFloor := lowest guard.cycleFloor (some index) }

/-- One more attempt would pass the limit. -/
def Overrun (guard : Guard κ) : Prop :=
  guard.maxIterations < min (guard.iterations + 1) Limits.counterMax

/-- One more key would pass the limit. -/
def Full (guard : Guard κ) : Prop := guard.maxDepth ≤ guard.depth

/-- A limit does not admit one more key. -/
def Spent (guard : Guard κ) : Prop := guard.Overrun ∨ guard.Full

instance (guard : Guard κ) : Decidable guard.Overrun := inferInstanceAs (Decidable (_ < _))

instance (guard : Guard κ) : Decidable guard.Full := inferInstanceAs (Decidable (_ ≤ _))

instance (guard : Guard κ) : Decidable guard.Spent := inferInstanceAs (Decidable (_ ∨ _))

/-- The active keys, innermost first. -/
def keys (guard : Guard κ) : List κ := guard.visiting.map (·.1)

/-! ## Floors -/

/-- The floor lies below a position. -/
def Reaches (floor : Option Nat) (base : Nat) : Prop := ∃ index, floor = some index ∧ index < base

theorem not_reaches_none (base : Nat) : ¬ Reaches none base := by
  rintro ⟨index, h, -⟩
  cases h

theorem reaches_lowest {a b : Option Nat} {base : Nat} :
    Reaches (lowest a b) base ↔ Reaches a base ∨ Reaches b base := by
  cases a with
  | none => simp [lowest, not_reaches_none]
  | some i =>
    cases b with
    | none => simp [lowest, not_reaches_none]
    | some j =>
      simp only [lowest, Reaches, Option.some.injEq, exists_eq_left']
      omega

theorem reaches_filter {floor : Option Nat} {base index : Nat} (h : base ≤ index) :
    Reaches (floor.filter fun i => decide (i < index)) base ↔ Reaches floor base := by
  cases floor with
  | none => simp [not_reaches_none]
  | some i =>
    by_cases hi : i < index
    · rw [Option.filter_some_pos (by simpa using hi)]
    · rw [Option.filter_some_neg (by simpa using hi)]
      have out : ¬ Reaches (some i) base := by
        rintro ⟨j, hj, lt⟩
        cases hj
        omega
      simp [out, not_reaches_none]

/-! ## Entering and leaving -/

variable [BEq κ]

theorem enter_overrun {guard : Guard κ} (key : κ) (h : guard.Overrun) :
    guard.enter key = (.iterationExceeded, guard.counted.markExceeded) :=
  if_pos h

theorem enter_full {guard : Guard κ} (key : κ) (h : ¬ guard.Overrun) (hf : guard.Full) :
    guard.enter key = (.depthExceeded, guard.counted.markExceeded) :=
  (if_neg h).trans (if_pos hf)

theorem enter_active {guard : Guard κ} {key : κ} {index : Nat} (h : ¬ guard.Overrun)
    (hf : ¬ guard.Full) (hp : guard.position? key = some index) :
    guard.enter key = (.cycle, guard.counted.lowered index) := by
  refine (if_neg h).trans ((if_neg hf).trans ?_)
  have hp' : guard.counted.position? key = some index := hp
  simp only [counted] at hp'
  rw [hp']
  rfl

theorem enter_fresh {guard : Guard κ} {key : κ} (h : ¬ guard.Overrun) (hf : ¬ guard.Full)
    (hp : guard.position? key = none) :
    guard.enter key = (.entered, guard.counted.pushed key) := by
  refine (if_neg h).trans ((if_neg hf).trans ?_)
  have hp' : guard.counted.position? key = none := hp
  simp only [counted] at hp'
  rw [hp']
  rfl

/-- The outcomes of an attempt, apart from which limit was met. -/
theorem enter_cases (guard : Guard κ) (key : κ) :
    (guard.Spent ∧ ∃ why, why ≠ .entered ∧ why ≠ .cycle ∧
      guard.enter key = (why, guard.counted.markExceeded)) ∨
    (¬ guard.Spent ∧ ∃ index, guard.position? key = some index ∧
      guard.enter key = (.cycle, guard.counted.lowered index)) ∨
    (¬ guard.Spent ∧ guard.position? key = none ∧
      guard.enter key = (.entered, guard.counted.pushed key)) := by
  by_cases hover : guard.Overrun
  · exact .inl ⟨.inl hover, _, by decide, by decide, enter_overrun key hover⟩
  by_cases hfull : guard.Full
  · exact .inl ⟨.inr hfull, _, by decide, by decide, enter_full key hover hfull⟩
  have room : ¬ guard.Spent := fun h => h.elim hover hfull
  cases hp : guard.position? key with
  | some index => exact .inr (.inl ⟨room, index, rfl, enter_active hover hfull hp⟩)
  | none => exact .inr (.inr ⟨room, rfl, enter_fresh hover hfull hp⟩)

/-- Leaving the innermost key takes it off, and keeps of the floor what lies outside it. -/
theorem leave_top [ReflBEq κ] {guard : Guard κ} {key : κ} {index : Nat} {rest : List (κ × Nat)}
    (h : guard.visiting = (key, index) :: rest) :
    guard.leave key
      = ((guard.cycleFloor.filter fun floor => decide (floor < index)).isSome,
          { guard with
            visiting := rest
            frames := guard.frames.tail
            cycleFloor := lowest (guard.frames.head?.getD none)
              (guard.cycleFloor.filter fun floor => decide (floor < index)) }) := by
  have hp : guard.position? key = some index := by simp [position?, h]
  simp only [leave, hp]
  simp [h]

/-- A key that is left as it was entered leaves no trace. -/
theorem leave_pushed [ReflBEq κ] (guard : Guard κ) (key : κ) :
    (guard.pushed key).leave key = (false, guard) := by
  have floor : lowest guard.cycleFloor none = guard.cycleFloor := by
    cases guard.cycleFloor <;> rfl
  have top : (guard.pushed key).visiting = (key, guard.frames.length) :: guard.visiting := rfl
  rw [leave_top top]
  simp [pushed, floor]

/-- Leaving never forgets that a limit was met. -/
theorem leave_exceeded (guard : Guard κ) (key : κ) :
    (guard.leave key).2.exceeded = guard.exceeded := by
  rw [leave]
  cases guard.position? key <;> rfl

theorem leave_iterations (guard : Guard κ) (key : κ) :
    (guard.leave key).2.iterations = guard.iterations := by
  rw [leave]
  cases guard.position? key <;> rfl

theorem position?_isSome_iff [LawfulBEq κ] (guard : Guard κ) (key : κ) :
    (guard.position? key).isSome ↔ key ∈ guard.keys := by
  rw [position?, List.lookup_isSome_iff, keys, List.mem_map]
  simp only [beq_iff_eq, @eq_comm _ key]

theorem position?_eq_none_iff [LawfulBEq κ] (guard : Guard κ) (key : κ) :
    guard.position? key = none ↔ key ∉ guard.keys := by
  rw [← position?_isSome_iff, Option.not_isSome_iff_eq_none]

end LuaTyping.Guard
