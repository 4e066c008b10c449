import LuaTyping.Proofs.Infer.Interchangeable
import LuaTyping.Proofs.Infer.Levels
import LuaTyping.Proofs.Workspace.History

/-!
# Raising the limit on the depth

How deep a query may go is asked at every frame and every nested expression. As long as the answer
is that there is room, a higher limit would not have changed it. So a step that meets no limit goes
the same way under every higher one, with the same answer and the same state but for the limits
(`Unhindered`). A limit that is met stays on record, so it is enough to look at the end.

Each way to put steps together carries this over, and from them it follows for whole goals. The
levels that a higher limit brings along are not used.
-/

set_option autoImplicit false

namespace LuaTyping.Infer

/-! ## Under another limit -/

/-- The state with another limit on how deep the query may go. -/
def State.withLimit (s : State) (limit : Nat) : State :=
  { s with
    guard := { s.guard with maxDepth := limit }
    depth := { s.depth with maxDepth := limit } }

/-- The limits of the state are not above the given one. -/
structure State.Below (s : State) (limit : Nat) : Prop where
  guard : s.guard.maxDepth ≤ limit
  depth : s.depth.maxDepth ≤ limit

/-- Between the two states the limits stay the same, and so does having met one. -/
structure SameLimits (before after : State) : Prop where
  guard : after.guard.maxDepth = before.guard.maxDepth
  depth : after.depth.maxDepth = before.depth.maxDepth
  met : before.limitMet = true → after.limitMet = true

theorem SameLimits.refl (s : State) : SameLimits s s := ⟨rfl, rfl, id⟩

theorem SameLimits.trans {s₁ s₂ s₃ : State} (h : SameLimits s₁ s₂) (h' : SameLimits s₂ s₃) :
    SameLimits s₁ s₃ :=
  ⟨h'.guard.trans h.guard, h'.depth.trans h.depth, h'.met ∘ h.met⟩

theorem SameLimits.below {s s' : State} {limit : Nat} (h : SameLimits s s')
    (below : s.Below limit) : s'.Below limit :=
  ⟨h.guard ▸ below.guard, h.depth ▸ below.depth⟩

/-- Unless it meets a limit, the step goes the same way under the limit `limit`. -/
structure Unhindered (limit : Nat) {α : Type} (step : InferM α) : Prop where
  limits : ∀ s, SameLimits s (exec step s).2
  same : ∀ s, s.Below limit → (exec step s).2.limitMet = false →
    exec step (s.withLimit limit) = ((exec step s).1, (exec step s).2.withLimit limit)

section Steps

variable {limit : Nat} {α β κ : Type}

/-- A step that neither reads nor changes the guard and the counter of expressions. -/
theorem unhindered_apart {step : InferM α} (guard : ∀ s, (exec step s).2.guard = s.guard)
    (depth : ∀ s, (exec step s).2.depth = s.depth)
    (same : ∀ s, exec step (s.withLimit limit)
      = ((exec step s).1, (exec step s).2.withLimit limit)) : Unhindered limit step where
  limits s := by
    constructor <;> simp [State.limitMet, guard, depth]
  same s _ _ := same s

theorem unhindered_pure (answer : α) : Unhindered limit (pure answer : InferM α) :=
  unhindered_apart (fun _ => rfl) (fun _ => rfl) fun _ => rfl

theorem unhindered_bind {step : InferM α} {next : α → InferM β} (h : Unhindered limit step)
    (h' : ∀ answer, Unhindered limit (next answer)) : Unhindered limit (step >>= next) where
  limits s := (h.limits s).trans ((h' _).limits _)
  same s below unmet := by
    rw [exec_bind] at unmet
    -- what is met on the way is still on record at the end
    have unmet' : (exec step s).2.limitMet = false :=
      Bool.eq_false_iff.mpr fun met => by simp [((h' _).limits _).met met] at unmet
    rw [exec_bind, exec_bind, h.same s below unmet']
    exact (h' _).same _ ((h.limits s).below below) unmet

theorem unhindered_recordName (name : String) : Unhindered limit (recordName name) := by
  refine unhindered_apart (fun s => (noted_recordName s name).guard)
    (fun s => (noted_recordName s name).depth) fun s => ?_
  obtain ⟨guard, depth, classes, cache, files⟩ := s
  cases files <;> rfl

theorem unhindered_recordFile (file : FileId) : Unhindered limit (recordFile file) := by
  refine unhindered_apart (fun s => (noted_recordFile s file).guard)
    (fun s => (noted_recordFile s file).depth) fun s => ?_
  obtain ⟨guard, depth, classes, cache, files⟩ := s
  cases files <;> rfl

theorem unhindered_cached (key : CacheKey) : Unhindered limit (cached key) :=
  unhindered_apart (fun _ => rfl) (fun _ => rfl) fun _ => rfl

theorem unhindered_keep (key : CacheKey) (ty : Ty) : Unhindered limit (keep key ty) :=
  unhindered_apart (fun _ => rfl) (fun _ => rfl) fun _ => rfl

theorem unhindered_mayCache (ctx : Context) : Unhindered limit (mayCache ctx) :=
  unhindered_apart (fun _ => rfl) (fun _ => rfl) fun _ => rfl

/-- A change of the class values that this query has built. -/
theorem unhindered_modifyClasses (f : Std.HashMap String Ty → Std.HashMap String Ty) :
    Unhindered limit (modify fun s => { s with classes := f s.classes } : InferM Unit) :=
  unhindered_apart (fun _ => rfl) (fun _ => rfl) fun _ => rfl

theorem unhindered_run {answer : κ → InferM Ty} (h : ∀ question, Unhindered limit (answer question))
    (plan : Plan κ α) : Unhindered limit (plan.run answer) := by
  induction plan with
  | done result => exact unhindered_pure result
  | note name next ih => exact unhindered_bind (unhindered_recordName name) fun _ => ih
  | ask question next ih => exact unhindered_bind (h question) ih

/-- Where there is room under one limit there is room under a higher one. -/
theorem unhindered_enter (key : GuardKey) : Unhindered limit (enter key) := by
  have run (s : State) : exec (enter key) s
      = ((s.guard.enter key).1, { s with guard := (s.guard.enter key).2 }) := rfl
  refine ⟨fun s => ?_, fun s below unmet => ?_⟩
  · rw [run]
    rcases s.guard.enter_cases key with ⟨-, why, -, -, h⟩ | ⟨-, index, -, h⟩ | ⟨-, -, h⟩ <;> rw [h]
    · exact ⟨rfl, rfl, fun _ => rfl⟩
    · exact ⟨rfl, rfl, id⟩
    · exact ⟨rfl, rfl, id⟩
  · rw [run] at unmet
    have raised (room : ¬ s.guard.Spent) :
        ¬ (s.withLimit limit).guard.Overrun ∧ ¬ (s.withLimit limit).guard.Full := by
      have full : ¬ s.guard.maxDepth ≤ s.guard.depth := fun full => room (.inr full)
      refine ⟨fun overrun => room (.inl overrun), fun full' => full ?_⟩
      exact Nat.le_trans below.guard full'
    rw [run, run]
    rcases s.guard.enter_cases key with
      ⟨-, why, -, -, h⟩ | ⟨room, index, active, h⟩ | ⟨room, inactive, h⟩
    · rw [h] at unmet
      cases unmet
    · have h' := Guard.enter_active (raised room).1 (raised room).2
        (show (s.withLimit limit).guard.position? key = some index from active)
      rw [h, h']
      rfl
    · have h' := Guard.enter_fresh (raised room).1 (raised room).2
        (show (s.withLimit limit).guard.position? key = none from inactive)
      rw [h, h']
      rfl

theorem unhindered_leave (key : GuardKey) : Unhindered limit (leave key) := by
  have run (s : State) : exec (leave key) s
      = ((s.guard.leave key).1, { s with guard := (s.guard.leave key).2 }) := rfl
  refine ⟨fun s => ?_, fun s _ _ => ?_⟩
  · have maxDepth : (s.guard.leave key).2.maxDepth = s.guard.maxDepth := by
      rw [Guard.leave]
      split <;> rfl
    refine ⟨maxDepth, rfl, ?_⟩
    rw [run, State.limitMet, State.limitMet, Guard.leave_exceeded]
    exact id
  · have raised : (s.withLimit limit).guard.leave key
        = ((s.guard.leave key).1, { (s.guard.leave key).2 with maxDepth := limit }) := by
      simp only [Guard.leave, Guard.position?, State.withLimit]
      split <;> rfl
    rw [run, run, raised]
    rfl

variable {body : InferM α} (h : Unhindered limit body)
include h

theorem unhindered_within (key : GuardKey) : Unhindered limit (within key body) := by
  refine unhindered_bind (unhindered_enter key) fun admission => ?_
  cases admission with
  | entered =>
    refine unhindered_bind h fun answer => ?_
    exact unhindered_bind (unhindered_leave key) fun provisional => unhindered_pure _
  | _ => exact unhindered_pure none

theorem unhindered_nested : Unhindered limit (nested body) := by
  refine ⟨fun s => ?_, fun s below unmet => ?_⟩
  · rcases exec_nested body s with ⟨-, hrun⟩ | ⟨-, r, hr, hrun⟩ <;> rw [hrun]
    · exact ⟨rfl, rfl, fun _ => by simp [State.limitMet]⟩
    · have limits := h.limits { s with depth := { s.depth with depth := s.depth.depth + 1 } }
      rw [← hr] at limits
      exact ⟨limits.guard, limits.depth, limits.met⟩
  · rcases exec_nested body s with ⟨-, hrun⟩ | ⟨room, r, hr, hrun⟩
    · rw [hrun] at unmet
      simp [State.limitMet] at unmet
    · rcases exec_nested body (s.withLimit limit) with ⟨full, -⟩ | ⟨-, r', hr', hrun'⟩
      · exact absurd (Nat.le_trans below.depth full) (Nat.not_le.mpr room)
      · have unmet' : r.2.limitMet = false := by rwa [hrun] at unmet
        have same := h.same { s with depth := { s.depth with depth := s.depth.depth + 1 } }
          ⟨below.guard, below.depth⟩ (hr ▸ unmet')
        rw [← hr] at same
        rw [hrun, hrun', hr'.trans same]
        rfl

theorem unhindered_inFile (file : FileId) : Unhindered limit (inFile file body) := by
  refine unhindered_bind (unhindered_apart (fun _ => rfl) (fun _ => rfl) fun _ => rfl) fun _ => ?_
  refine unhindered_bind h fun _ => ?_
  exact unhindered_bind (unhindered_apart (fun _ => rfl) (fun _ => rfl) fun _ => rfl)
    fun _ => unhindered_pure _

end Steps

/-! ## Tasks and goals -/

section Solver

variable {limit : Nat} (ctx : Context)

/-- What comes after a declaration was inferred: its type may be kept. -/
theorem unhindered_settle (key : CacheKey) (result : Option (Ty × Bool)) :
    Unhindered limit (do
      match result with
      | none => pure Ty.unknown
      | some (computed, provisional) =>
        let ty := computed.instantiate ctx.bindings
        if provisional || !(← mayCache ctx) then pure ty else keep key ty) := by
  cases result with
  | none => exact unhindered_pure _
  | some result =>
    refine unhindered_bind (unhindered_mayCache ctx) fun may => ?_
    split
    · exact unhindered_pure _
    · exact unhindered_keep key _

/-- What comes after a class value was built: it may be kept. -/
theorem unhindered_remember (name : String) (unfinished : Ty) (result : Option (Ty × Bool)) :
    Unhindered limit (do
      match result with
      | none => pure unfinished
      | some (ty, provisional) =>
        if !provisional && (← mayCache ctx) then
          modify fun state => { state with classes := state.classes.insert name ty }
        pure ty) := by
  cases result with
  | none => exact unhindered_pure _
  | some result =>
    refine unhindered_bind (unhindered_mayCache ctx) fun may => ?_
    dsimp only
    split
    · exact unhindered_bind (unhindered_modifyClasses fun classes => classes.insert name _)
        fun _ => unhindered_pure _
    · exact unhindered_pure _

/-- A class value that this query has built, or else what a step makes of it. -/
theorem unhindered_builtOr (name : String) {step : InferM Ty} (h : Unhindered limit step) :
    Unhindered limit (do
      match (← get).classes[name]? with
      | some ty => pure ty
      | none => step) := by
  have run (s : State) : exec (do
      match (← get).classes[name]? with
      | some ty => pure ty
      | none => step) s
      = match s.classes[name]? with
        | some ty => (ty, s)
        | none => exec step s := by
    simp only [exec_bind, exec_get]
    cases s.classes[name]? <;> rfl
  refine ⟨fun s => ?_, fun s below unmet => ?_⟩
  · rw [run]
    split
    · exact .refl s
    · exact h.limits s
  · have same : (s.withLimit limit).classes = s.classes := rfl
    rw [run] at unmet
    rw [run, run, same]
    cases built : s.classes[name]? with
    | some ty => rfl
    | none =>
      simp only [built] at unmet
      exact h.same s below unmet

variable {deeper : Solver} (h : ∀ goal, Unhindered limit (deeper goal))
include h

theorem unhindered_perform (task : Task) : Unhindered limit (perform ctx deeper task) := by
  cases task with
  | decl key =>
    rw [perform, performDecl]
    split
    · exact unhindered_pure _
    · refine unhindered_bind (unhindered_recordFile _) fun _ =>
        unhindered_bind (unhindered_cached _) fun found => ?_
      cases found with
      | some ty => exact unhindered_pure ty
      | none =>
        refine unhindered_bind (unhindered_within (unhindered_inFile (unhindered_run h _) _) _) ?_
        exact unhindered_settle ctx _
  | expr file node expected =>
    rw [perform, performExpr]
    split
    · exact unhindered_pure _
    · exact unhindered_bind (unhindered_nested (unhindered_run h _)) fun _ => unhindered_pure _
  | classValue name =>
    refine unhindered_bind (unhindered_recordName name) fun _ => unhindered_builtOr name ?_
    exact unhindered_bind (unhindered_within (unhindered_run h _) _)
      (unhindered_remember ctx name _)
  | expansion name file target =>
    refine unhindered_bind (unhindered_within ?_ _) fun _ => unhindered_pure _
    exact unhindered_bind (unhindered_recordFile file) fun _ => h _

end Solver

theorem unhindered_solveWithin (ctx : Context) (limit levels : Nat) (goal : Goal) :
    Unhindered limit (solveWithin ctx levels goal) := by
  induction levels generalizing goal with
  | zero => exact unhindered_pure _
  | succ levels ih => exact unhindered_run (unhindered_perform ctx ih) (goal.plan ctx)

/-! ## Queries -/

/-- Where the type of a node is found without a limit being met, every higher limit on the depth
gives the same type and leaves the same cache. -/
theorem nodeType_eq_of_deeper (snapshot : Snapshot) (options : Options) (bindings : Bindings)
    (cancelled : Bool) (cache : Cache) (file : FileId) (node : NodeRef) (deeper : Nat)
    (le : options.maxDepth ≤ deeper) :
    let raised := { options with maxDepth := deeper }
    let found := exec (nodeType (.make snapshot options bindings cancelled) file node)
      (.start options cache)
    let found' := exec (nodeType (.make snapshot raised bindings cancelled) file node)
      (.start raised cache)
    found.2.limitMet = false → found'.1 = found.1 ∧ found'.2.cache = found.2.cache := by
  intro raised found found' unmet
  let ctx := Context.make snapshot options bindings cancelled
  let other := Context.make snapshot raised bindings cancelled
  have h : ctx.Interchangeable other := ⟨.refl snapshot, rfl, rfl, rfl, rfl⟩
  have ready : Ready ctx (2 * options.maxDepth + 1) (.start options cache) := ready_idle ctx cache ∅
  -- over the same context the higher limit brings more levels, which are not used
  have levels : exec ((Rule.nodeType ctx file node).run (solveWithin ctx (2 * deeper + 1)))
      (.start options cache) = found :=
    run_solveWithin_eq _ ready (ready.mono (by omega))
  have same := (unhindered_run (unhindered_solveWithin ctx deeper (2 * deeper + 1))
    (Rule.nodeType ctx file node)).same (.start options cache) ⟨le, le⟩ (levels ▸ unmet)
  have raised_eq : found' = (found.1, found.2.withLimit deeper) := by
    show exec ((Rule.nodeType other file node).run (solveWithin other (2 * deeper + 1)))
      ((State.start options cache).withLimit deeper) = _
    rw [Rule.Interchangeable.nodeType_eq h, h.solveWithin_eq, same, levels]
  rw [raised_eq]
  exact ⟨rfl, rfl⟩

open Workspace Workspace.CircularPair Workspace.GlobalPair in
/-- Two globals that are documented as lists of each other, under the standard limit and twice
that. -/
theorem nodeType_eq_of_deeper_circle :
    let found := exec (nodeType (.make (.ofFiles [indexed]) .standard .empty false) ⟨1⟩ (some 0))
      (.start .standard .empty)
    let raised := { Options.standard with maxDepth := 1000 }
    let found' := exec (nodeType (.make (.ofFiles [indexed]) raised .empty false) ⟨1⟩ (some 0))
      (.start raised .empty)
    (Options.standard.maxDepth ≤ 1000 ∧ found.2.limitMet = false) ∧
      found'.1 = .array (.array .unknown) ∧ found'.2.cache = found.2.cache := by
  intro found raised found'
  obtain ⟨after, hrun, -, unmet⟩ := first_run false 998 (.start .standard .empty)
  have found_eq : found = (.array (.array .unknown), after) := exec_nodeType false rfl hrun
  have unlimited : found.2.limitMet = false := by rw [found_eq]; exact unmet
  have deeper : Options.standard.maxDepth ≤ 1000 := by decide
  obtain ⟨ty_eq, cache_eq⟩ := nodeType_eq_of_deeper (.ofFiles [indexed]) .standard .empty false
    .empty ⟨1⟩ (some 0) 1000 deeper unlimited
  exact ⟨⟨deeper, unlimited⟩, ty_eq.trans (congrArg Prod.fst found_eq), cache_eq⟩

end LuaTyping.Infer
