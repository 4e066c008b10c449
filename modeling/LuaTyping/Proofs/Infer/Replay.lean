import LuaTyping.Proofs.Infer.Dependencies
import LuaTyping.Proofs.Infer.Frames
import LuaTyping.Proofs.Infer.Reads

/-!
# Inferring again over another version of the project

While a type is inferred, what is read is recorded for the file of the declaration that is being
inferred. Records are never taken back. So if all that a whole query has recorded lies within the
files and names on which two versions of a project agree, then so does all that it has recorded at
any moment, and every rule that it followed is alike in both versions. The query over the other
version then runs step by step as the first one did: same answer, same state.

`SameAt` says this of a step and a state. It is carried through the steps of a query from the end
backwards: what is covered at the end of a step is covered in the middle of it, because from there
on the step only records more (`Growing`).
-/

set_option autoImplicit false

namespace LuaTyping.Infer

/-! ## Records are not taken back -/

/-- Nothing recorded is lost between the two states, and the same file is at work. -/
structure Grown (before after : State) : Prop where
  cache : before.cache.Grows after.cache
  files : after.files = before.files

theorem Grown.refl (s : State) : Grown s s := ⟨.refl _, rfl⟩

theorem Grown.trans {s₁ s₂ s₃ : State} (h : Grown s₁ s₂) (h' : Grown s₂ s₃) : Grown s₁ s₃ :=
  ⟨h.cache.trans h'.cache, h'.files.trans h.files⟩

/-- The step only records. -/
def Growing {α : Type} (step : InferM α) : Prop := ∀ s, Grown s (exec step s).2

section Growing

variable {α β κ : Type}

theorem growing_pure (answer : α) : Growing (pure answer) := Grown.refl

theorem growing_bind {step : InferM α} {next : α → InferM β} (h : Growing step)
    (h' : ∀ answer, Growing (next answer)) : Growing (step >>= next) :=
  fun s => (h s).trans (h' _ _)

theorem growing_get : Growing get := Grown.refl

theorem growing_modify {f : State → State} (h : ∀ s, Grown s (f s)) : Growing (modify f) := h

theorem growing_recordName (name : String) : Growing (recordName name) := by
  refine growing_bind growing_get fun s => ?_
  cases s.files with
  | nil => exact growing_pure ()
  | cons current rest => exact growing_modify fun _ => ⟨.recordName _ current name, rfl⟩

theorem growing_recordFile (file : FileId) : Growing (recordFile file) := by
  refine growing_bind growing_get fun s => ?_
  cases s.files with
  | nil => exact growing_pure ()
  | cons current rest => exact growing_modify fun _ => ⟨.recordFile _ current file, rfl⟩

theorem growing_cached (key : CacheKey) : Growing (cached key) := by
  intro s
  refine ⟨?_, rfl⟩
  show s.cache.Grows (s.cache.get key).2
  rw [Cache.get]
  split <;> exact .of_eq rfl rfl

theorem growing_keep (key : CacheKey) (ty : Ty) : Growing (keep key ty) := by
  intro s
  refine ⟨?_, rfl⟩
  show s.cache.Grows (s.cache.insert key ty).2
  rw [Cache.insert]
  split <;> exact .of_eq rfl rfl

theorem growing_mayCache (ctx : Context) : Growing (mayCache ctx) := Grown.refl

theorem growing_run {answer : κ → InferM Ty} (h : ∀ question, Growing (answer question))
    (plan : Plan κ α) : Growing (plan.run answer) := by
  induction plan with
  | done result => exact growing_pure result
  | note name next ih => exact growing_bind (growing_recordName name) fun _ => ih
  | ask question next ih => exact growing_bind (h question) ih

variable {body : InferM α} (h : Growing body)
include h

theorem growing_within (key : GuardKey) : Growing (within key body) := by
  refine growing_bind (fun s => ⟨.refl _, rfl⟩) fun admission => ?_
  cases admission with
  | entered =>
    refine growing_bind h fun answer => ?_
    exact growing_bind (fun s => ⟨.refl _, rfl⟩) fun provisional => growing_pure _
  | _ => exact growing_pure none

theorem growing_nested : Growing (nested body) := by
  refine growing_bind growing_get fun s => ?_
  rcases s.depth.enter with ⟨_ | _, depth⟩
  · exact growing_bind (growing_modify fun _ => ⟨.refl _, rfl⟩) fun _ => growing_pure none
  · refine growing_bind (growing_modify fun _ => ⟨.refl _, rfl⟩) fun _ => growing_bind h fun _ => ?_
    exact growing_bind (growing_modify fun _ => ⟨.refl _, rfl⟩) fun _ => growing_pure _

theorem growing_inFile (file : FileId) : Growing (inFile file body) := by
  intro s
  have grown := h { s with files := file :: s.files }
  exact ⟨grown.cache, congrArg List.tail grown.files⟩

end Growing

/-- What comes after a declaration was inferred: its type may be kept. -/
theorem growing_settle (ctx : Context) (key : CacheKey) (result : Option (Ty × Bool)) :
    Growing (do
      match result with
      | none => pure Ty.unknown
      | some (computed, provisional) =>
        let ty := computed.instantiate ctx.bindings
        if provisional || !(← mayCache ctx) then pure ty else keep key ty) := by
  cases result with
  | none => exact growing_pure _
  | some result =>
    refine growing_bind (growing_mayCache ctx) fun may => ?_
    split
    · exact growing_pure _
    · exact growing_keep key _

/-- What comes after a class value was built: it may be kept. -/
theorem growing_remember (ctx : Context) (name : String) (unfinished : Ty)
    (result : Option (Ty × Bool)) :
    Growing (do
      match result with
      | none => pure unfinished
      | some (ty, provisional) =>
        if !provisional && (← mayCache ctx) then
          modify fun state => { state with classes := state.classes.insert name ty }
        pure ty) := by
  cases result with
  | none => exact growing_pure _
  | some result =>
    refine growing_bind (growing_mayCache ctx) fun may => ?_
    dsimp only
    split
    · exact growing_bind (growing_modify fun _ => ⟨.refl _, rfl⟩) fun _ => growing_pure _
    · exact growing_pure _

theorem growing_keptOr (key : CacheKey) {step : InferM Ty} (h : Growing step) :
    Growing (do
      match ← cached key with
      | some ty => pure ty
      | none => step) := by
  refine growing_bind (growing_cached key) fun found => ?_
  cases found with
  | some ty => exact growing_pure ty
  | none => exact h

theorem growing_builtOr (name : String) {step : InferM Ty} (h : Growing step) :
    Growing (do
      match (← get).classes[name]? with
      | some ty => pure ty
      | none => step) := by
  refine growing_bind growing_get fun s => ?_
  split
  · exact growing_pure _
  · exact h

section Solver

variable (ctx : Context) {deeper : Solver} (h : ∀ goal, Growing (deeper goal))
include h

theorem growing_perform (task : Task) : Growing (perform ctx deeper task) := by
  cases task with
  | decl key =>
    rw [perform, performDecl]
    split
    · exact growing_pure _
    · refine growing_bind (growing_recordFile _) fun _ => growing_keptOr _ ?_
      refine growing_bind (growing_within (growing_inFile (growing_run h _) _) _) ?_
      exact growing_settle ctx _
  | expr file node expected =>
    rw [perform, performExpr]
    split
    · exact growing_pure _
    · exact growing_bind (growing_nested (growing_run h _)) fun _ => growing_pure _
  | classValue name =>
    refine growing_bind (growing_recordName name) fun _ => growing_builtOr name ?_
    exact growing_bind (growing_within (growing_run h _) _) (growing_remember ctx name _)
  | expansion name file target =>
    refine growing_bind (growing_within ?_ _) fun _ => growing_pure _
    exact growing_bind (growing_recordFile file) fun _ => h _

end Solver

theorem growing_solveWithin (ctx : Context) (levels : Nat) (goal : Goal) :
    Growing (solveWithin ctx levels goal) := by
  induction levels generalizing goal with
  | zero => exact growing_pure _
  | succ levels ih => exact growing_run (growing_perform ctx ih) (goal.plan ctx)

/-! ## The same run -/

section Same

variable {α β κ : Type} {files : FileId → Prop} {names : String → Prop} {s : State}

/-- From this state, the second step does what the first one does, if all that is recorded in the
end is covered. -/
def SameAt (files : FileId → Prop) (names : String → Prop) (s : State) (step step' : InferM α) :
    Prop :=
  (exec step s).2.cache.Covered files names → exec step' s = exec step s

theorem sameAt_refl (step : InferM α) : SameAt files names s step step := fun _ => rfl

theorem sameAt_bind {step step' : InferM α} {next next' : α → InferM β}
    (grows : ∀ answer, Growing (next answer)) (h : SameAt files names s step step')
    (h' : SameAt files names (exec step s).2 (next (exec step s).1) (next' (exec step s).1)) :
    SameAt files names s (step >>= next) (step' >>= next') := by
  intro covered
  rw [exec_bind] at covered
  rw [exec_bind, exec_bind, h (covered.of_grows (grows _ _).cache), h' covered]

/-- A declaration of a covered file is being inferred. -/
def Inside (files : FileId → Prop) (s : State) : Prop :=
  ∃ current rest, s.files = current :: rest ∧ files current

theorem Inside.grown {s' : State} (h : Inside files s) (grown : Grown s s') : Inside files s' := by
  obtain ⟨current, rest, stack, mem⟩ := h
  exact ⟨current, rest, grown.files.trans stack, mem⟩

/-- A file that is recorded is a covered one. -/
theorem Inside.recordFile (h : Inside files s) {file : FileId}
    (covered : (exec (recordFile file) s).2.cache.Covered files names) : files file := by
  obtain ⟨current, rest, stack, mem⟩ := h
  by_cases own : current = file
  · exact own ▸ mem
  · refine covered.dependsOn current file mem ?_
    simp only [Infer.recordFile, exec_bind, exec_get, stack]
    exact Cache.dependsOn_recordFile.mpr (.inr ⟨own, rfl, rfl⟩)

/-- A name that is recorded is a covered one. -/
theorem Inside.recordName (h : Inside files s) {name : String}
    (covered : (exec (recordName name) s).2.cache.Covered files names) : names name := by
  obtain ⟨current, rest, stack, mem⟩ := h
  refine covered.reads current name mem ?_
  simp only [Infer.recordName, exec_bind, exec_get, stack]
  exact Cache.reads_recordName.mpr (.inr ⟨rfl, rfl⟩)

/-- The second step does what the first one does while a declaration of a covered file is being
inferred. -/
def Same (files : FileId → Prop) (names : String → Prop) (step step' : InferM α) : Prop :=
  ∀ s, Inside files s → SameAt files names s step step'

theorem sameAt_recordName {name : String} {next next' : InferM α} (inside : Inside files s)
    (grows : Growing next)
    (h : names name → SameAt files names (exec (recordName name) s).2 next next') :
    SameAt files names s (do recordName name; next) (do recordName name; next') := by
  intro covered
  exact h (inside.recordName (covered.of_grows (grows _).cache)) covered

/-- Alike plans run alike, if their questions are answered alike. -/
theorem same_run {valid : κ → Prop} {answer answer' : κ → InferM Ty} {p q : Plan κ α}
    (alike : p.Alike names valid q) (grows : ∀ question, Growing (answer question))
    (h : ∀ question, valid question → Same files names (answer question) (answer' question)) :
    Same files names (p.run answer) (q.run answer') := by
  induction alike with
  | done result => exact fun s _ => sameAt_refl _
  | note name _ ih =>
    intro s inside
    refine sameAt_recordName inside (growing_run grows _) fun noted => ?_
    exact ih noted _ (inside.grown (growing_recordName name s))
  | ask asked _ ih =>
    intro s inside
    -- the answer is the same on both sides, so they go on with the same rest of the plan
    refine sameAt_bind (fun _ => growing_run grows _) (h _ asked s inside) ?_
    exact ih _ _ (inside.grown (grows _ s))

theorem sameAt_after {step : InferM α} {next next' : α → InferM β}
    (h : SameAt files names (exec step s).2 (next (exec step s).1) (next' (exec step s).1)) :
    SameAt files names s (step >>= next) (step >>= next') := h

section Frames

variable {body body' : InferM α}

theorem sameAt_within (key : GuardKey)
    (h : ∀ guard, SameAt files names { s with guard } body body') :
    SameAt files names s (within key body) (within key body') := by
  refine sameAt_after ?_
  cases (exec (enter key) s).1 with
  | entered =>
    refine sameAt_bind (fun _ => ?_) (h _) (sameAt_refl _)
    exact growing_bind (fun s => ⟨.refl _, rfl⟩) fun _ => growing_pure _
  | _ => exact sameAt_refl _

theorem sameAt_nested (h : ∀ depth, SameAt files names { s with depth } body body') :
    SameAt files names s (nested body) (nested body') := by
  refine sameAt_after ?_
  simp only [exec_get]
  rcases s.depth.enter with ⟨_ | _, depth⟩
  · exact sameAt_refl _
  · refine sameAt_after (sameAt_bind (fun _ => ?_) (h depth) (sameAt_refl _))
    exact growing_bind (growing_modify fun _ => ⟨.refl _, rfl⟩) fun _ => growing_pure _

theorem sameAt_inFile (file : FileId)
    (h : SameAt files names { s with files := file :: s.files } body body') :
    SameAt files names s (inFile file body) (inFile file body') := by
  have run (body : InferM α) : exec (inFile file body) s
      = ((exec body { s with files := file :: s.files }).1,
          { (exec body { s with files := file :: s.files }).2 with
            files := (exec body { s with files := file :: s.files }).2.files.tail }) := rfl
  intro covered
  rw [run, run, h covered]

end Frames

end Same

section Replay

variable {files : FileId → Prop} {names : String → Prop} {ctx : Context} {after : Snapshot}
  (agree : Snapshot.Agree files names ctx.snapshot after)
include agree

theorem cacheKey_anew {key : DeclKey} (h : files key.file) :
    cacheKey (ctx.anew after) key = cacheKey ctx key := by
  simp only [cacheKey, Context.anew, Snapshot.generation, agree.file? key.file h]

section Tasks

variable {deeper deeper' : Solver} (grows : ∀ goal, Growing (deeper goal))
  (same : ∀ goal : Goal, goal.Within files → Same files names (deeper goal) (deeper' goal))
include grows same

/-- The type of a declaration of a covered file is inferred alike, whatever is being inferred. -/
theorem sameAt_performDecl {key : DeclKey} (h : files key.file) (s : State) :
    SameAt files names s (performDecl ctx deeper key)
      (performDecl (ctx.anew after) deeper' key) := by
  unfold performDecl
  rw [cacheKey_anew agree h]
  by_cases cancelled : ctx.cancelled
  · rw [if_pos cancelled, if_pos (show (ctx.anew after).cancelled from cancelled)]
    exact sameAt_refl _
  · rw [if_neg cancelled, if_neg (show ¬ (ctx.anew after).cancelled from cancelled)]
    refine sameAt_after (sameAt_after ?_)
    split
    · exact sameAt_refl _
    -- inside the frame the covered file of the declaration is at work, whatever was outside
    · refine sameAt_bind (growing_settle ctx _) (sameAt_within _ fun guard => ?_) (sameAt_refl _)
      refine sameAt_inFile key.file ?_
      exact same_run (Rule.alike_declType agree h) grows same _ ⟨key.file, _, rfl, h⟩

/-- Whatever is being inferred in a covered file, the file of the declaration is recorded. -/
theorem same_performDecl (key : DeclKey) :
    Same files names (performDecl ctx deeper key) (performDecl (ctx.anew after) deeper' key) := by
  intro s inside covered
  by_cases cancelled : ctx.cancelled
  · rw [performDecl, performDecl, if_pos cancelled,
      if_pos (show (ctx.anew after).cancelled from cancelled)]
  · refine sameAt_performDecl agree grows same (inside.recordFile (covered.of_grows ?_)) s covered
    unfold performDecl
    rw [if_neg cancelled]
    refine (growing_keptOr _ ?_ _).cache
    refine growing_bind (growing_within (growing_inFile (growing_run grows _) _) _) ?_
    exact growing_settle ctx _

theorem same_performExpr {file : FileId} (h : files file) (node : NodeRef) (expected : Option Ty) :
    Same files names (performExpr ctx deeper file node expected)
      (performExpr (ctx.anew after) deeper' file node expected) := by
  intro s inside
  unfold performExpr
  by_cases cancelled : ctx.cancelled
  · rw [if_pos cancelled, if_pos (show (ctx.anew after).cancelled from cancelled)]
    exact sameAt_refl _
  · rw [if_neg cancelled, if_neg (show ¬ (ctx.anew after).cancelled from cancelled)]
    refine sameAt_bind (fun _ => growing_pure _) (sameAt_nested fun depth => ?_) (sameAt_refl _)
    exact same_run (Rule.alike_exprType agree h node expected) grows same _ inside

theorem same_performClass (name : String) :
    Same files names (performClass ctx deeper name)
      (performClass (ctx.anew after) deeper' name) := by
  intro s inside
  refine sameAt_recordName inside ?_ fun noted => ?_
  · refine growing_builtOr name ?_
    exact growing_bind (growing_within (growing_run grows _) _) (growing_remember ctx name _)
  · have inside' := inside.grown (growing_recordName name s)
    refine sameAt_after ?_
    split
    · exact sameAt_refl _
    · rw [show Rule.acyclicSupertypes (ctx.anew after).snapshot name = _ from
        Rule.acyclicSupertypes_eq agree name]
      refine sameAt_bind (growing_remember ctx name _) (sameAt_within _ fun guard => ?_)
        (sameAt_refl _)
      exact same_run (Rule.alike_classValue agree noted) grows same _ inside'

omit agree grows in
theorem same_performExpansion (name : String) (file : FileId) (target : Ty) :
    Same files names (performExpansion deeper name file target)
      (performExpansion deeper' name file target) := by
  intro s inside
  refine sameAt_bind (fun _ => growing_pure _) (sameAt_within _ fun guard => ?_) (sameAt_refl _)
  have entered : Inside files { s with guard } := inside
  exact sameAt_after (same (.resolve target) trivial _ (entered.grown (growing_recordFile file _)))

theorem same_perform {task : Task} (h : task.Within files) :
    Same files names (perform ctx deeper task) (perform (ctx.anew after) deeper' task) := by
  cases task with
  | decl key => exact same_performDecl agree grows same key
  | expr file node expected => exact same_performExpr agree grows same h node expected
  | classValue name => exact same_performClass agree grows same name
  | expansion name file target => exact same_performExpansion same name file target

end Tasks

theorem same_solveWithin (levels : Nat) {goal : Goal} (h : goal.Within files) :
    Same files names (solveWithin ctx levels goal) (solveWithin (ctx.anew after) levels goal) := by
  induction levels generalizing goal with
  | zero => exact fun _ _ => sameAt_refl _
  | succ levels ih =>
    have grows := growing_solveWithin ctx levels
    refine same_run (Goal.alike_plan agree h) (growing_perform ctx grows) fun task valid => ?_
    exact same_perform agree grows (fun _ => ih) valid

/-- A declaration of a covered file, asked for first, is inferred alike over both versions of the
project, if the files and names on which they agree cover all that is recorded. -/
theorem sameAt_declType {key : DeclKey} (h : files key.file) (s : State) :
    SameAt files names s (solve ctx (.decl key)) (solve (ctx.anew after) (.decl key)) := by
  have asked (levels : Nat) : SameAt files names s (solveWithin ctx (levels + 1) (.decl key))
      (solveWithin (ctx.anew after) (levels + 1) (.decl key)) :=
    sameAt_performDecl agree (growing_solveWithin ctx levels)
      (fun _ => same_solveWithin agree levels) h s
  exact asked (2 * ctx.options.maxDepth)

end Replay

end LuaTyping.Infer
