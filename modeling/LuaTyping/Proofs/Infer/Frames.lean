import LuaTyping.Infer.Reference
import LuaTyping.Proofs.Guard

/-!
# Frames

Carrying out a task is one of four things. The answer is already known; or a limit refuses it; or
the task is being carried out further out and is cut short; or a *frame* is opened, the rule of the
task runs inside it, and the frame is closed again. `perform_known`, `perform_guarded` and
`perform_nested` say so for all tasks at once, and proofs about the engine go by these cases instead
of opening the four ways of carrying out a task.

What a frame does besides the guard and the counter of expressions is bookkeeping: dependencies are
recorded and questions to the cache are counted. `Noted` says that nothing but that has happened.
-/

set_option autoImplicit false

namespace LuaTyping.Infer

/-! ## Running steps -/

/-- The answer of a step and the state after it. -/
def exec {α : Type} (step : InferM α) (state : State) : α × State := Id.run (step.run state)

section Exec

variable {α β κ : Type} (state : State)

@[simp] theorem exec_pure (answer : α) : exec (pure answer) state = (answer, state) := rfl

@[simp] theorem exec_bind (step : InferM α) (next : α → InferM β) :
    exec (step >>= next) state = exec (next (exec step state).1) (exec step state).2 := rfl

@[simp] theorem exec_get : exec get state = (state, state) := rfl

@[simp] theorem exec_modify (f : State → State) : exec (modify f) state = ((), f state) := rfl

@[simp] theorem exec_ite (p : Prop) [Decidable p] (yes no : InferM α) :
    exec (if p then yes else no) state = if p then exec yes state else exec no state := by
  split <;> rfl

variable (answer : κ → InferM Ty)

@[simp] theorem exec_run_done (result : α) :
    exec ((Plan.done result).run answer) state = (result, state) := rfl

@[simp] theorem exec_run_note (name : String) (next : Plan κ α) :
    exec ((Plan.note name next).run answer) state
      = exec (next.run answer) (exec (recordName name) state).2 := rfl

@[simp] theorem exec_run_ask (question : κ) (next : Ty → Plan κ α) :
    exec ((Plan.ask question next).run answer) state
      = exec ((next (exec (answer question) state).1).run answer)
          (exec (answer question) state).2 := rfl

theorem exec_run_bind (plan : Plan κ α) (next : α → Plan κ β) :
    exec ((plan >>= next).run answer) state
      = exec ((next (exec (plan.run answer) state).1).run answer)
          (exec (plan.run answer) state).2 := by
  induction plan generalizing state with
  | done result => rfl
  | note name plan ih => exact ih _
  | ask question plan ih => exact ih _ _

end Exec

/-! ## Bookkeeping -/

/-- Nothing but bookkeeping lies between the two states: dependencies, counts, and the files on
whose behalf dependencies are recorded. -/
structure Noted (before after : State) : Prop where
  guard : after.guard = before.guard
  depth : after.depth = before.depth
  classes : after.classes = before.classes
  entries : after.cache.entries = before.cache.entries

theorem Noted.refl (state : State) : Noted state state := ⟨rfl, rfl, rfl, rfl⟩

theorem Noted.trans {s₁ s₂ s₃ : State} (h : Noted s₁ s₂) (h' : Noted s₂ s₃) : Noted s₁ s₃ :=
  ⟨h'.guard.trans h.guard, h'.depth.trans h.depth, h'.classes.trans h.classes,
    h'.entries.trans h.entries⟩

/-- Bookkeeping does not get in the way of a change of the guard. -/
theorem Noted.withGuard {before after : State} (h : Noted before after) (guard : Guard GuardKey) :
    Noted { before with guard } { after with guard } :=
  ⟨rfl, h.depth, h.classes, h.entries⟩

theorem noted_modifyCache (state : State) (f : Cache → Cache)
    (h : ∀ cache, (f cache).entries = cache.entries) :
    Noted state (exec (modifyCache f) state).2 :=
  ⟨rfl, rfl, rfl, h _⟩

theorem noted_recordName (state : State) (name : String) :
    Noted state (exec (recordName name) state).2 := by
  simp only [recordName, exec_bind, exec_get]
  cases state.files with
  | nil => exact Noted.refl state
  | cons current _ => exact noted_modifyCache state _ fun _ => rfl

theorem noted_recordFile (state : State) (file : FileId) :
    Noted state (exec (recordFile file) state).2 := by
  simp only [recordFile, exec_bind, exec_get]
  cases state.files with
  | nil => exact Noted.refl state
  | cons current _ =>
    refine noted_modifyCache state _ fun cache => ?_
    rw [Cache.recordFile]
    split <;> rfl

/-- A question to the cache is answered from its entries and otherwise only counted. -/
theorem exec_cached (state : State) (key : CacheKey) :
    ∃ after, Noted state after ∧
      exec (cached key) state = (state.cache.entries[key]?, after) := by
  cases h : state.cache.entries[key]? with
  | some ty =>
    refine ⟨{ state with cache := { state.cache with hits := state.cache.hits + 1 } },
      ⟨rfl, rfl, rfl, rfl⟩, ?_⟩
    simp only [exec, cached, Cache.get, StateT.run, h, Id.run]
  | none =>
    refine ⟨{ state with cache := { state.cache with misses := state.cache.misses + 1 } },
      ⟨rfl, rfl, rfl, rfl⟩, ?_⟩
    simp only [exec, cached, Cache.get, StateT.run, h, Id.run]

/-! ## Opening and closing -/

/-- What running one level of expressions deeper comes to. -/
theorem exec_nested {α : Type} (body : InferM α) (s : State) :
    (s.depth.maxDepth ≤ s.depth.depth ∧
      exec (nested body) s = (none, { s with depth := { s.depth with exceeded := true } })) ∨
    (s.depth.depth < s.depth.maxDepth ∧
      ∃ r, r = exec body { s with depth := { s.depth with depth := s.depth.depth + 1 } } ∧
        exec (nested body) s = (some r.1, { r.2 with depth := r.2.depth.leave })) := by
  by_cases h : s.depth.maxDepth ≤ s.depth.depth
  · have refused : s.depth.enter = (false, { s.depth with exceeded := true }) := if_pos h
    refine .inl ⟨h, ?_⟩
    simp only [nested, exec_bind, exec_get, refused]
    rfl
  · have entered : s.depth.enter = (true, { s.depth with depth := s.depth.depth + 1 }) := if_neg h
    refine .inr ⟨Nat.lt_of_not_le h, _, rfl, ?_⟩
    simp only [nested, exec_bind, exec_get, entered]
    rfl

/-- The step runs `body` after the bookkeeping `first`, with nothing but bookkeeping after it. -/
def Wraps {α : Type} (first : State → State) (step body : InferM α) : Prop :=
  ∀ s, Noted s (first s) ∧ ∃ done, Noted (exec body (first s)).2 done ∧
    exec step s = ((exec body (first s)).1, done)

theorem wraps_id {α : Type} (body : InferM α) : Wraps id body body :=
  fun s => ⟨Noted.refl s, _, Noted.refl _, rfl⟩

theorem wraps_inFile {α : Type} (file : FileId) (body : InferM α) :
    Wraps (fun s => { s with files := file :: s.files }) (inFile file body) body := by
  intro s
  let r := exec body { s with files := file :: s.files }
  exact ⟨⟨rfl, rfl, rfl, rfl⟩, { r.2 with files := r.2.files.tail }, ⟨rfl, rfl, rfl, rfl⟩, rfl⟩

theorem wraps_recordFile {α : Type} (file : FileId) (body : InferM α) :
    Wraps (fun s => (exec (recordFile file) s).2) (do recordFile file; body) body :=
  fun s => ⟨noted_recordFile s file, _, Noted.refl _, rfl⟩

/-- The state in which a step runs under the guard, if the guard admits it. -/
def enteredWith (key : GuardKey) (first : State → State) (s : State) : Option State :=
  match s.guard.enter key with
  | (.entered, guard) => some (first { s with guard })
  | _ => none

/-- Running a wrapped step under the guard, after some bookkeeping. -/
theorem exec_within_wraps {α : Type} (key : GuardKey) {first : State → State}
    {step body : InferM α} {s before : State} (noted : Noted s before)
    (wraps : Wraps first step body) :
    (s.guard.Spent ∧ enteredWith key first before = none ∧
      ∃ after, Noted { s with guard := s.guard.counted.markExceeded } after ∧
        exec (within key step) before = (none, after)) ∨
    (¬ s.guard.Spent ∧ enteredWith key first before = none ∧
      ∃ index, s.guard.position? key = some index ∧
      ∃ after, Noted { s with guard := s.guard.counted.lowered index } after ∧
        exec (within key step) before = (none, after)) ∨
    (¬ s.guard.Spent ∧ s.guard.position? key = none ∧
      ∃ inside, enteredWith key first before = some inside ∧
        Noted { s with guard := s.guard.counted.pushed key } inside ∧
        ∃ done, Noted (exec body inside).2 done ∧
          exec (within key step) before
            = (some ((exec body inside).1, (done.guard.leave key).1),
                { done with guard := (done.guard.leave key).2 })) := by
  rw [enteredWith, noted.guard]
  -- bookkeeping does not touch the guard, so it answers as it would have before
  have attempt : exec (enter key) before
      = ((s.guard.enter key).1, { before with guard := (s.guard.enter key).2 }) := by
    rw [← noted.guard]
    rfl
  rcases s.guard.enter_cases key with
    ⟨spent, why, notEntered, notCycle, henter⟩ | ⟨room, index, hpos, henter⟩ | ⟨room, hpos, henter⟩
  · refine .inl ⟨spent, ?_, _, noted.withGuard _, ?_⟩
    · cases why <;> simp_all
    · cases why <;> simp_all [within]
  · refine .inr (.inl ⟨room, ?_, index, hpos, _, noted.withGuard _, ?_⟩)
    · rw [henter]
    · simp [within, attempt, henter]
  · obtain ⟨hfirst, done, hdone, hstep⟩ :=
      wraps { before with guard := s.guard.counted.pushed key }
    refine .inr (.inr ⟨room, hpos, _, ?_, (noted.withGuard _).trans hfirst, done, hdone, ?_⟩)
    · rw [henter]
    · simp only [within, exec_bind, attempt, henter, hstep]
      rfl

/-! ## Tasks, uniformly -/

namespace Task

/-- What the guard knows a task by. Expressions are only counted. -/
def guardKey? : Task → Option GuardKey
  | .decl key => some (.decl key)
  | .expr _ _ _ => none
  | .classValue name => some (.className name)
  | .expansion name _ _ => some (.aliasName name)

variable (ctx : Context)

/-- The answer to a task that is refused or cut short. -/
def fallback : Task → Ty
  | .classValue name => .named name (Rule.acyclicSupertypes ctx.snapshot name) []
  | _ => .unknown

/-- The answer to a task that is not carried out again. -/
def known? (s : State) : Task → Option Ty
  | .decl key => if ctx.cancelled then some .unknown else s.cache.entries[cacheKey ctx key]?
  | .expr _ _ _ => if ctx.cancelled then some .unknown else none
  | .classValue name => s.classes[name]?
  | .expansion _ _ _ => none

theorem known?_congr (task : Task) {s s' : State} (classes : s'.classes = s.classes)
    (entries : s'.cache.entries = s.cache.entries) : task.known? ctx s' = task.known? ctx s := by
  cases task <;> simp only [known?, classes, entries]

/-- The rule of a task. -/
def rule : Task → Rule Ty
  | .decl key => Rule.declType ctx key
  | .expr file node expected => Rule.exprType ctx file node expected
  | .classValue name => Rule.classValue ctx name
  | .expansion _ _ target => Rule.ask (.resolve target)

/-- The bookkeeping before a task is carried out. -/
def before (s : State) : Task → State
  | .decl key => (exec (do recordFile key.file; cached (cacheKey ctx key)) s).2
  | .expr _ _ _ => s
  | .classValue name => (exec (recordName name) s).2
  | .expansion _ _ _ => s

/-- The bookkeeping before the rule of a task is followed. -/
def first : Task → State → State
  | .decl key => fun s => { s with files := key.file :: s.files }
  | .expansion _ file _ => fun s => (exec (recordFile file) s).2
  | _ => id

/-- The state in which the rule of a task is followed, if carrying out the task opens a frame. -/
def inside? (s : State) (task : Task) : Option State :=
  match task.known? ctx s, task.guardKey? with
  | some _, _ => none
  | none, some key => enteredWith key task.first (task.before ctx s)
  | none, none =>
    match s.depth.enter with
    | (true, depth) => some { s with depth }
    | _ => none

/-- What the answer of the rule is made into. -/
def finished (ty : Ty) : Task → Ty
  | .decl _ => ty.instantiate ctx.bindings
  | _ => ty

/-- Keeps the answer to a task, where the kind of task allows it. -/
def store (ty : Ty) (s : State) : Task → Ty × State
  | .decl key =>
    ((s.cache.insert (cacheKey ctx key) ty).1,
      { s with cache := (s.cache.insert (cacheKey ctx key) ty).2 })
  | .classValue name => (ty, { s with classes := s.classes.insert name ty })
  | _ => (ty, s)

end Task

/-- A limit has been met. -/
def State.limitMet (s : State) : Bool := s.guard.exceeded || s.depth.exceeded

/-- Leaves the frame of a task whose rule has given `ty` in the state `s`, and keeps the answer if
it is not provisional. -/
def Task.close (ctx : Context) (task : Task) (key : GuardKey) (ty : Ty) (s : State) : Ty × State :=
  if (s.guard.leave key).1 || ctx.cancelled || s.limitMet then
    (task.finished ctx ty, { s with guard := (s.guard.leave key).2 })
  else task.store ctx (task.finished ctx ty) { s with guard := (s.guard.leave key).2 }

theorem exec_mayCache (ctx : Context) (s : State) :
    exec (mayCache ctx) s = (!(ctx.cancelled || s.limitMet), s) := by
  rw [State.limitMet, Bool.not_or, Bool.not_or, ← Bool.and_assoc]
  rfl

/-- The type of a declaration is kept under its key if it is final and no other one is. -/
theorem close_decl {ctx : Context} {key : DeclKey} {ty : Ty} {s : State}
    (running : ctx.cancelled = false) (final : (s.guard.leave (.decl key)).1 = false)
    (unlimited : s.limitMet = false) (unkept : (Task.decl key).known? ctx s = none) :
    (Task.decl key).close ctx (.decl key) ty s
      = (ty.instantiate ctx.bindings,
          { s with
            guard := (s.guard.leave (.decl key)).2
            cache := { s.cache with
              entries :=
                s.cache.entries.insert (cacheKey ctx key) (ty.instantiate ctx.bindings) } }) := by
  simp only [Task.known?, running, Bool.false_eq_true, if_false] at unkept
  rw [Task.close, final, running, unlimited]
  simp only [Task.store, Cache.insert, unkept]
  rfl

section Perform

variable (ctx : Context) (deeper : Solver)

theorem perform_known {task : Task} {s : State} {ty : Ty} (h : task.known? ctx s = some ty) :
    ∃ after, Noted s after ∧ exec (perform ctx deeper task) s = (ty, after) := by
  cases task with
  | decl key =>
    simp only [Task.known?] at h
    simp only [perform, performDecl, exec_ite]
    split at h
    · rename_i cancelled
      rw [if_pos cancelled]
      cases h
      exact ⟨s, Noted.refl s, rfl⟩
    · rename_i running
      have noted := noted_recordFile s key.file
      obtain ⟨after, counted, hcached⟩ :=
        exec_cached (exec (recordFile key.file) s).2 (cacheKey ctx key)
      rw [noted.entries, h] at hcached
      refine ⟨after, noted.trans counted, ?_⟩
      rw [if_neg running]
      simp only [exec_bind, hcached, exec_pure]
  | expr file node expected =>
    simp only [Task.known?] at h
    split at h
    · rename_i cancelled
      cases h
      simp only [perform, performExpr, if_pos cancelled]
      exact ⟨s, Noted.refl s, rfl⟩
    · cases h
  | classValue name =>
    have noted := noted_recordName s name
    refine ⟨_, noted, ?_⟩
    simp only [perform, performClass, exec_bind, exec_get, noted.classes]
    rw [show s.classes[name]? = some ty from h]
    rfl
  | expansion name file target => cases h

/-- What running the rule of a task under the guard comes to: its fallback if the guard does not
admit it, and otherwise its answer, kept unless it is provisional or may not be kept. -/
def Task.settle (task : Task) : Option (Ty × Bool) × State → Ty × State
  | (none, after) => (task.fallback ctx, after)
  | (some (ty, provisional), after) =>
    if provisional || ctx.cancelled || after.limitMet then (task.finished ctx ty, after)
    else task.store ctx (task.finished ctx ty) after

theorem performDecl_eq {key : DeclKey} {s : State}
    (unknown : (Task.decl key).known? ctx s = none) :
    Noted s ((Task.decl key).before ctx s) ∧
      exec (perform ctx deeper (.decl key)) s
        = (Task.decl key).settle ctx (exec (within (.decl key)
            (inFile key.file ((Rule.declType ctx key).run deeper)))
            ((Task.decl key).before ctx s)) := by
  have running : ¬ ctx.cancelled = true := by
    intro h
    simp only [Task.known?, if_pos h] at unknown
    cases unknown
  simp only [Task.known?, if_neg running] at unknown
  have recorded := noted_recordFile s key.file
  obtain ⟨before, counted, hcached⟩ :=
    exec_cached (exec (recordFile key.file) s).2 (cacheKey ctx key)
  rw [recorded.entries, unknown] at hcached
  have before_eq : (Task.decl key).before ctx s = before := by
    simp only [Task.before, exec_bind, hcached]
  rw [before_eq]
  refine ⟨recorded.trans counted, ?_⟩
  simp only [perform, performDecl, if_neg running, exec_bind, hcached]
  rcases exec (within (.decl key) (inFile key.file ((Rule.declType ctx key).run deeper))) before
    with ⟨_ | ⟨ty, provisional⟩, after⟩
  · rfl
  · simp only [Task.settle, exec_bind, exec_mayCache, Bool.not_not, Bool.or_assoc]
    split <;> rfl

theorem performClass_eq {name : String} {s : State}
    (unknown : (Task.classValue name).known? ctx s = none) :
    Noted s ((Task.classValue name).before ctx s) ∧
      exec (perform ctx deeper (.classValue name)) s
        = (Task.classValue name).settle ctx (exec (within (.className name)
            ((Rule.classValue ctx name).run deeper)) ((Task.classValue name).before ctx s)) := by
  have noted := noted_recordName s name
  have unmade : (exec (recordName name) s).2.classes[name]? = none := by
    rw [noted.classes]
    exact unknown
  refine ⟨noted, ?_⟩
  simp only [perform, performClass, Task.before, exec_bind, exec_get, unmade]
  rcases exec (within (.className name) ((Rule.classValue ctx name).run deeper))
      (exec (recordName name) s).2 with ⟨_ | ⟨ty, provisional⟩, after⟩
  · rfl
  · simp only [Task.settle, exec_bind, exec_mayCache, Bool.or_assoc, ← Bool.not_or]
    cases provisional || (ctx.cancelled || after.limitMet) <;> rfl

theorem performExpansion_eq (name : String) (file : FileId) (target : Ty) (s : State) :
    exec (perform ctx deeper (.expansion name file target)) s
      = (Task.expansion name file target).settle ctx (exec (within (.aliasName name)
          (do recordFile file; deeper (.resolve target))) s) := by
  simp only [perform, performExpansion, exec_bind, exec_pure]
  rcases exec (within (.aliasName name) (do recordFile file; deeper (.resolve target))) s with
    ⟨_ | ⟨ty, provisional⟩, after⟩
  · rfl
  · -- what an alias stands for is never kept, so both ways out of the frame are the same
    simp only [Task.settle]
    split <;> rfl

omit deeper in
/-- A rule that has run under the guard leaves its frame. -/
theorem settle_leave (task : Task) (key : GuardKey) (ty : Ty) (done : State) :
    task.settle ctx (some (ty, (done.guard.leave key).1),
        { done with guard := (done.guard.leave key).2 }) = task.close ctx key ty done := by
  -- leaving the frame does not change whether a limit was met
  simp only [Task.settle, Task.close, State.limitMet, Guard.leave_exceeded]
  rfl

/-- The rule of a task that the guard watches over runs under the guard, with bookkeeping around
it. -/
theorem perform_eq_settle {task : Task} {s : State} {key : GuardKey}
    (unknown : task.known? ctx s = none) (guarded : task.guardKey? = some key) :
    Noted s (task.before ctx s) ∧
      ∃ step, Wraps task.first step ((task.rule ctx).run deeper) ∧
        exec (perform ctx deeper task) s
          = task.settle ctx (exec (within key step) (task.before ctx s)) := by
  cases task with
  | decl declKey =>
    cases guarded
    obtain ⟨noted, hrun⟩ := performDecl_eq ctx deeper unknown
    exact ⟨noted, _, wraps_inFile declKey.file _, hrun⟩
  | expr => cases guarded
  | classValue name =>
    cases guarded
    obtain ⟨noted, hrun⟩ := performClass_eq ctx deeper unknown
    exact ⟨noted, _, wraps_id _, hrun⟩
  | expansion name file target =>
    cases guarded
    exact ⟨.refl s, _, wraps_recordFile file _, performExpansion_eq ctx deeper name file target s⟩

/-- Carrying out a task that the guard watches over: a limit refuses it, it is cut short, or its
rule runs in a frame of its own. -/
theorem perform_guarded {task : Task} {s : State} {key : GuardKey}
    (unknown : task.known? ctx s = none) (guarded : task.guardKey? = some key) :
    (s.guard.Spent ∧ task.inside? ctx s = none ∧
      ∃ after, Noted { s with guard := s.guard.counted.markExceeded } after ∧
        exec (perform ctx deeper task) s = (task.fallback ctx, after)) ∨
    (¬ s.guard.Spent ∧ task.inside? ctx s = none ∧ ∃ index, s.guard.position? key = some index ∧
      ∃ after, Noted { s with guard := s.guard.counted.lowered index } after ∧
        exec (perform ctx deeper task) s = (task.fallback ctx, after)) ∨
    (¬ s.guard.Spent ∧ s.guard.position? key = none ∧
      ∃ inside, task.inside? ctx s = some inside ∧
        Noted { s with guard := s.guard.counted.pushed key } inside ∧
        ∃ done, Noted (exec ((task.rule ctx).run deeper) inside).2 done ∧
          exec (perform ctx deeper task) s
            = task.close ctx key (exec ((task.rule ctx).run deeper) inside).1 done) := by
  obtain ⟨noted, step, wraps, hperform⟩ := perform_eq_settle ctx deeper unknown guarded
  simp only [Task.inside?, unknown, guarded]
  rcases exec_within_wraps key noted wraps with
    ⟨spent, denied, after, hafter, hrun⟩ | ⟨room, denied, index, hpos, after, hafter, hrun⟩ |
    ⟨room, hpos, inside, opened, hinside, done, hdone, hrun⟩
  · refine .inl ⟨spent, denied, after, hafter, ?_⟩
    rw [hperform, hrun, Task.settle]
  · refine .inr (.inl ⟨room, denied, index, hpos, after, hafter, ?_⟩)
    rw [hperform, hrun, Task.settle]
  · refine .inr (.inr ⟨room, hpos, inside, opened, hinside, done, hdone, ?_⟩)
    rw [hperform, hrun, settle_leave]

/-- Within the limits, a task that is being carried out further out is cut short. -/
theorem perform_active {task : Task} {s : State} {key : GuardKey} {index : Nat}
    (unknown : task.known? ctx s = none) (guarded : task.guardKey? = some key)
    (room : ¬ s.guard.Spent) (active : s.guard.position? key = some index) :
    ∃ after, Noted { s with guard := s.guard.counted.lowered index } after ∧
      exec (perform ctx deeper task) s = (task.fallback ctx, after) := by
  rcases perform_guarded ctx deeper unknown guarded with
    ⟨spent, -⟩ | ⟨-, -, index', active', after, noted, hrun⟩ | ⟨-, inactive, -⟩
  · exact absurd spent room
  · cases active.symm.trans active'
    exact ⟨after, noted, hrun⟩
  · cases active.symm.trans inactive

/-- Within the limits, any other task opens a frame. -/
theorem perform_inactive {task : Task} {s : State} {key : GuardKey}
    (unknown : task.known? ctx s = none) (guarded : task.guardKey? = some key)
    (room : ¬ s.guard.Spent) (inactive : s.guard.position? key = none) :
    ∃ inside, task.inside? ctx s = some inside ∧
      Noted { s with guard := s.guard.counted.pushed key } inside ∧
      ∃ done, Noted (exec ((task.rule ctx).run deeper) inside).2 done ∧
        exec (perform ctx deeper task) s
          = task.close ctx key (exec ((task.rule ctx).run deeper) inside).1 done := by
  rcases perform_guarded ctx deeper unknown guarded with
    ⟨spent, -⟩ | ⟨-, -, index, active, -⟩ | ⟨-, -, opened⟩
  · exact absurd spent room
  · cases active.symm.trans inactive
  · exact opened

theorem perform_nested {task : Task} {s : State}
    (unknown : task.known? ctx s = none) (counted : task.guardKey? = none) :
    (s.depth.maxDepth ≤ s.depth.depth ∧ task.inside? ctx s = none ∧
      exec (perform ctx deeper task) s
        = (task.fallback ctx, { s with depth := { s.depth with exceeded := true } })) ∨
    (s.depth.depth < s.depth.maxDepth ∧
      ∃ inside, task.inside? ctx s = some inside ∧
        inside = { s with depth := { s.depth with depth := s.depth.depth + 1 } } ∧
        ∃ r, r = exec ((task.rule ctx).run deeper) inside ∧
          exec (perform ctx deeper task) s = (r.1, { r.2 with depth := r.2.depth.leave })) := by
  simp only [Task.inside?, unknown, counted]
  cases task with
  | expr file node expected =>
    have running : ¬ ctx.cancelled = true := by
      intro h
      simp only [Task.known?, if_pos h] at unknown
      cases unknown
    simp only [perform, performExpr, if_neg running, exec_bind, exec_pure]
    rcases exec_nested ((Rule.exprType ctx file node expected).run deeper) s with
      ⟨full, hrun⟩ | ⟨room, r, hr, hrun⟩
    · have refused : s.depth.enter = (false, { s.depth with exceeded := true }) := if_pos full
      refine .inl ⟨full, ?_, ?_⟩
      · rw [refused]
      · rw [hrun]
        rfl
    · have entered : s.depth.enter = (true, { s.depth with depth := s.depth.depth + 1 }) :=
        if_neg (Nat.not_le.mpr room)
      refine .inr ⟨room, _, ?_, rfl, r, hr, ?_⟩
      · rw [entered]
      · rw [hrun]
        rfl
  | decl | classValue | expansion => cases counted

end Perform

end LuaTyping.Infer
