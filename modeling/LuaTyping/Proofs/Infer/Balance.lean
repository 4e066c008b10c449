import LuaTyping.Proofs.Infer.Frames

/-!
# Every frame is left

Whatever a goal asks for, the guard has the same keys and frames afterwards, and expressions are as
deep as before. Two things can only grow: that a limit was met, and how far out a cycle has reached.

`Escaped base` collects the latter as seen from a frame at position `base`: since that frame was
opened a limit was met, or a cycle was cut on a frame outside it. The floor of the guard alone does
not show it, since opening a further frame puts the floor aside. Once escaped, always escaped, as
long as the frame at `base` is open; and when it is closed its result is provisional.

The last part is about levels. They are never used up, because every level opens a frame or nests an
expression, and there are as many levels as both limits together allow.
-/

set_option autoImplicit false

namespace LuaTyping

namespace Infer

open Guard

/-! ## What every step keeps -/

/-- Between the two states every frame that was opened was closed. -/
structure Kept (before after : State) : Prop where
  visiting : after.guard.visiting = before.guard.visiting
  frames : after.guard.frames = before.guard.frames
  maxDepth : after.guard.maxDepth = before.guard.maxDepth
  maxIterations : after.guard.maxIterations = before.guard.maxIterations
  nesting : after.depth.depth = before.depth.depth
  maxNesting : after.depth.maxDepth = before.depth.maxDepth
  floor : ∀ base, Reaches before.guard.cycleFloor base → Reaches after.guard.cycleFloor base
  limit : before.limitMet = true → after.limitMet = true

namespace Kept

theorem refl (s : State) : Kept s s := ⟨rfl, rfl, rfl, rfl, rfl, rfl, fun _ => id, id⟩

theorem trans {s₁ s₂ s₃ : State} (h : Kept s₁ s₂) (h' : Kept s₂ s₃) : Kept s₁ s₃ where
  visiting := h'.visiting.trans h.visiting
  frames := h'.frames.trans h.frames
  maxDepth := h'.maxDepth.trans h.maxDepth
  maxIterations := h'.maxIterations.trans h.maxIterations
  nesting := h'.nesting.trans h.nesting
  maxNesting := h'.maxNesting.trans h.maxNesting
  floor base := h'.floor base ∘ h.floor base
  limit := h'.limit ∘ h.limit

theorem of_eq {s s' : State} (guard : s'.guard = s.guard) (depth : s'.depth = s.depth) :
    Kept s s' := by
  constructor <;> simp [State.limitMet, guard, depth]

theorem of_noted {s s' : State} (h : Noted s s') : Kept s s' := of_eq h.guard h.depth

theorem markExceeded (s : State) :
    Kept s { s with guard := s.guard.counted.markExceeded } :=
  ⟨rfl, rfl, rfl, rfl, rfl, rfl, fun _ => id, fun _ => rfl⟩

theorem lowered (s : State) (index : Nat) :
    Kept s { s with guard := s.guard.counted.lowered index } :=
  ⟨rfl, rfl, rfl, rfl, rfl, rfl, fun _ h => reaches_lowest.mpr (.inl h), id⟩

theorem refused (s : State) :
    Kept s { s with depth := { s.depth with exceeded := true } } :=
  ⟨rfl, rfl, rfl, rfl, rfl, rfl, fun _ => id, fun _ => by simp [State.limitMet]⟩

theorem store (ctx : Context) (task : Task) (ty : Ty) (s : State) :
    Kept s (task.store ctx ty s).2 := by
  cases task <;> exact of_eq rfl rfl

end Kept

/-- The state inside a frame once its rule has run: the frame is on top, as it was pushed. -/
structure Framed (key : GuardKey) (s done : State) : Prop where
  visiting : done.guard.visiting = (key, s.guard.depth) :: s.guard.visiting
  frames : done.guard.frames = s.guard.cycleFloor :: s.guard.frames
  maxDepth : done.guard.maxDepth = s.guard.maxDepth
  maxIterations : done.guard.maxIterations = s.guard.maxIterations
  nesting : done.depth.depth = s.depth.depth
  maxNesting : done.depth.maxDepth = s.depth.maxDepth
  limit : s.limitMet = true → done.limitMet = true

theorem framed_of_kept {key : GuardKey} {s inside after done : State}
    (hinside : Noted { s with guard := s.guard.counted.pushed key } inside)
    (kept : Kept inside after) (hdone : Noted after done) : Framed key s done := by
  have pushed : Kept { s with guard := s.guard.counted.pushed key } done :=
    (Kept.of_noted hinside).trans (kept.trans (Kept.of_noted hdone))
  exact ⟨pushed.visiting, pushed.frames, pushed.maxDepth, pushed.maxIterations, pushed.nesting,
    pushed.maxNesting, pushed.limit⟩

/-- The guard after the frame is left. -/
theorem Framed.leave_eq {key : GuardKey} {s done : State} (h : Framed key s done) :
    done.guard.leave key
      = ((done.guard.cycleFloor.filter fun floor => decide (floor < s.guard.depth)).isSome,
          { done.guard with
            visiting := s.guard.visiting
            frames := s.guard.frames
            cycleFloor := lowest s.guard.cycleFloor
              (done.guard.cycleFloor.filter fun floor => decide (floor < s.guard.depth)) }) := by
  rw [leave_top h.visiting, h.frames]
  rfl

theorem Framed.kept_leave {key : GuardKey} {s done : State} (h : Framed key s done) :
    Kept s { done with guard := (done.guard.leave key).2 } := by
  rw [h.leave_eq]
  exact ⟨rfl, rfl, h.maxDepth, h.maxIterations, h.nesting, h.maxNesting,
    fun _ hf => reaches_lowest.mpr (.inl hf), h.limit⟩

theorem Framed.kept_close {key : GuardKey} {s done : State} (h : Framed key s done)
    (ctx : Context) (task : Task) (ty : Ty) : Kept s (task.close ctx key ty done).2 := by
  rw [Task.close]
  split
  · exact h.kept_leave
  · exact h.kept_leave.trans (Kept.store ctx task _ _)

/-- A way to answer questions that keeps the frames. -/
def Balanced {κ : Type} (answer : κ → InferM Ty) : Prop :=
  ∀ question s, Kept s (exec (answer question) s).2

theorem kept_run {κ α : Type} {answer : κ → InferM Ty} (balanced : Balanced answer)
    (plan : Plan κ α) (s : State) : Kept s (exec (plan.run answer) s).2 := by
  induction plan generalizing s with
  | done result => exact Kept.refl s
  | note name next ih => exact (Kept.of_noted (noted_recordName s name)).trans (ih _)
  | ask question next ih => exact (balanced question s).trans (ih _ _)

theorem balanced_perform (ctx : Context) {deeper : Solver} (balanced : Balanced deeper) :
    Balanced (perform ctx deeper) := by
  intro task s
  cases known : task.known? ctx s with
  | some ty =>
    obtain ⟨after, noted, hrun⟩ := perform_known ctx deeper known
    rw [hrun]
    exact Kept.of_noted noted
  | none =>
    cases guarded : task.guardKey? with
    | some key =>
      rcases perform_guarded ctx deeper known guarded with
        ⟨-, -, after, noted, hrun⟩ | ⟨-, -, index, -, after, noted, hrun⟩ |
        ⟨-, -, inside, -, hinside, done, hdone, hrun⟩ <;> rw [hrun]
      · exact (Kept.markExceeded s).trans (Kept.of_noted noted)
      · exact (Kept.lowered s index).trans (Kept.of_noted noted)
      · exact (framed_of_kept hinside (kept_run balanced _ _) hdone).kept_close ctx task _
    | none =>
      rcases perform_nested ctx deeper known guarded with
        ⟨-, -, hrun⟩ | ⟨-, _, -, rfl, r, hr, hrun⟩ <;> rw [hrun]
      · exact Kept.refused s
      · have kept := kept_run balanced (task.rule ctx)
          { s with depth := { s.depth with depth := s.depth.depth + 1 } }
        rw [← hr] at kept
        refine ⟨kept.visiting, kept.frames, kept.maxDepth, kept.maxIterations, ?_, kept.maxNesting,
          kept.floor, kept.limit⟩
        show r.2.depth.depth - 1 = s.depth.depth
        rw [kept.nesting]
        rfl

theorem balanced_solveWithin (ctx : Context) (levels : Nat) :
    Balanced (solveWithin ctx levels) := by
  induction levels with
  | zero => exact fun _ s => Kept.refl s
  | succ levels ih => exact fun goal s => kept_run (balanced_perform ctx ih) (goal.plan ctx) s

/-! ## Escaping a frame -/

/-- A limit was met, or a cycle was cut outside the frame at position `base` since it was opened.
The floors that later frames have put aside count as well. -/
def Escaped (base : Nat) (s : State) : Prop :=
  s.limitMet = true ∨ Reaches s.guard.cycleFloor base ∨
    ∃ floor ∈ s.guard.frames.take (s.guard.depth - (base + 1)), Reaches floor base

theorem Escaped.kept {base : Nat} {s s' : State} (h : Escaped base s) (kept : Kept s s') :
    Escaped base s' := by
  rcases h with limit | reaches | ⟨floor, mem, reaches⟩
  · exact .inl (kept.limit limit)
  · exact .inr (.inl (kept.floor base reaches))
  · refine .inr (.inr ⟨floor, ?_, reaches⟩)
    rw [Guard.depth, kept.frames]
    exact mem

/-- Nothing is outside the outermost frame, so only a limit escapes it. -/
theorem Escaped.limitMet {s : State} (h : Escaped 0 s) : s.limitMet = true := by
  have none_below (floor : Option Nat) : ¬ Reaches floor 0 := fun ⟨index, _, below⟩ =>
    Nat.not_lt_zero index below
  rcases h with limit | reaches | ⟨floor, -, reaches⟩
  · exact limit
  · exact absurd reaches (none_below _)
  · exact absurd reaches (none_below _)

/-- Closing a frame at `base` or further in does not hide that a cycle has left the frames from
`base` on. -/
theorem Escaped.leave {base : Nat} {key : GuardKey} {s done : State} (framed : Framed key s done)
    (inner : base ≤ s.guard.depth) (h : Escaped base done) :
    Escaped base { done with guard := (done.guard.leave key).2 } := by
  rw [framed.leave_eq]
  rcases h with limit | reaches | ⟨floor, mem, reaches⟩
  · exact .inl limit
  · exact .inr (.inl (reaches_lowest.mpr (.inr ((reaches_filter inner).mpr reaches))))
  · have depth : done.guard.depth = s.guard.depth + 1 := congrArg List.length framed.frames
    -- the frame that is left is the one at `base`, with no later floors, or lies further in, and
    -- then the floor it had put aside becomes current again
    rcases Nat.eq_or_lt_of_le inner with rfl | inside
    · rw [depth, Nat.sub_self] at mem
      simp at mem
    · have above : done.guard.depth - (base + 1) = s.guard.depth - (base + 1) + 1 := by
        omega
      rw [above, framed.frames, List.take_succ_cons, List.mem_cons] at mem
      rcases mem with rfl | mem
      · exact .inr (.inl (reaches_lowest.mpr (.inl reaches)))
      · exact .inr (.inr ⟨floor, mem, reaches⟩)

theorem Escaped.close {base : Nat} {key : GuardKey} {s done : State} (framed : Framed key s done)
    (inner : base ≤ s.guard.depth) (h : Escaped base done) (ctx : Context) (task : Task) (ty : Ty) :
    Escaped base (task.close ctx key ty done).2 := by
  rw [Task.close]
  split
  · exact h.leave framed inner
  · exact (h.leave framed inner).kept (Kept.store ctx task _ _)

/-- A result that was not escaped from is the only one that is kept. -/
theorem not_escaped {key : GuardKey} {s done : State} (framed : Framed key s done)
    (final : (done.guard.leave key).1 = false) (unlimited : done.limitMet = false) :
    ¬ Escaped s.guard.depth done := by
  rintro (limit | reaches | ⟨floor, mem, -⟩)
  · simp [unlimited] at limit
  · obtain ⟨index, hfloor, lt⟩ := (reaches_filter (Nat.le_refl s.guard.depth)).mpr reaches
    rw [framed.leave_eq] at final
    simp [hfloor] at final
  · have depth : done.guard.depth = s.guard.depth + 1 := by
      rw [Guard.depth, framed.frames]
      rfl
    rw [depth, Nat.sub_self] at mem
    simp at mem

/-! ## Levels -/

/-- The guard and the counter have the limits of the query, active keys stand where a frame is, and
there are levels for all the frames and nested expressions that the limits still allow. -/
structure Ready (ctx : Context) (levels : Nat) (s : State) : Prop where
  enough : 2 * ctx.options.maxDepth < levels + s.guard.depth + s.depth.depth
  guardLimit : s.guard.maxDepth = ctx.options.maxDepth
  attempts : s.guard.maxIterations = Profile.declarationInference.maxIterations
  depthLimit : s.depth.maxDepth = ctx.options.maxDepth
  guardRoom : s.guard.depth ≤ ctx.options.maxDepth
  depthRoom : s.depth.depth ≤ ctx.options.maxDepth
  positions : ∀ entry ∈ s.guard.visiting, entry.2 < s.guard.depth

namespace Ready

variable {ctx : Context} {levels : Nat} {s s' : State}

theorem pos (h : Ready ctx levels s) : 0 < levels := by
  have := h.enough
  have := h.guardRoom
  have := h.depthRoom
  omega

theorem kept (h : Ready ctx levels s) (kept : Kept s s') : Ready ctx levels s' := by
  have depth : s'.guard.depth = s.guard.depth := congrArg List.length kept.frames
  constructor
  · rw [depth, kept.nesting]; exact h.enough
  · rw [kept.maxDepth]; exact h.guardLimit
  · rw [kept.maxIterations]; exact h.attempts
  · rw [kept.maxNesting]; exact h.depthLimit
  · rw [depth]; exact h.guardRoom
  · rw [kept.nesting]; exact h.depthRoom
  · rw [depth, kept.visiting]; exact h.positions

theorem inside {key : GuardKey} (h : Ready ctx (levels + 1) s) (room : ¬ s.guard.Spent)
    (noted : Noted { s with guard := s.guard.counted.pushed key } s') : Ready ctx levels s' := by
  have notFull : ¬ s.guard.maxDepth ≤ s.guard.depth := fun full => room (.inr full)
  obtain ⟨enough, guardLimit, attempts, depthLimit, guardRoom, depthRoom, positions⟩ := h
  have pushed : Ready ctx levels { s with guard := s.guard.counted.pushed key } := by
    refine ⟨?_, guardLimit, attempts, depthLimit, ?_, depthRoom, ?_⟩
    · show 2 * ctx.options.maxDepth < levels + (s.guard.depth + 1) + s.depth.depth
      omega
    · show s.guard.depth + 1 ≤ ctx.options.maxDepth
      omega
    · refine List.forall_mem_cons.mpr ⟨Nat.lt_succ_self _, fun entry mem => ?_⟩
      exact Nat.lt_succ_of_lt (positions entry mem)
  exact pushed.kept (Kept.of_noted noted)

theorem nested (h : Ready ctx (levels + 1) s) (room : s.depth.depth < s.depth.maxDepth) :
    Ready ctx levels { s with depth := { s.depth with depth := s.depth.depth + 1 } } := by
  obtain ⟨enough, guardLimit, attempts, depthLimit, guardRoom, depthRoom, positions⟩ := h
  refine ⟨?_, guardLimit, attempts, depthLimit, guardRoom, ?_, positions⟩
  · show 2 * ctx.options.maxDepth < levels + s.guard.depth + (s.depth.depth + 1)
    omega
  · show s.depth.depth + 1 ≤ ctx.options.maxDepth
    omega

end Ready

/-- A state in which a query can start, with any cache and any class values. -/
def State.idle (options : Options) (cache : Cache) (classes : Std.HashMap String Ty) : State :=
  { State.start options cache with classes }

theorem ready_idle (ctx : Context) (cache : Cache) (classes : Std.HashMap String Ty) :
    Ready ctx (2 * ctx.options.maxDepth + 1) (State.idle ctx.options cache classes) :=
  ⟨Nat.lt_succ_self _, rfl, rfl, rfl, Nat.zero_le _, Nat.zero_le _,
    fun _ mem => absurd mem (by simp [State.idle, State.start, Guard.withLimits])⟩

end Infer

end LuaTyping
