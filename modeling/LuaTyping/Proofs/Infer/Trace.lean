import LuaTyping.Proofs.Infer.Dependencies
import LuaTyping.Proofs.Infer.Frames

/-!
# Following a query through its frames

On a given project a query can be followed step by step. What decides its course is the guard, the
counter of expressions and the types that are kept; the rest of the state is bookkeeping. `At` fixes
these three, and each lemma says how they change when a frame is opened or closed.
-/

set_option autoImplicit false

namespace LuaTyping.Infer

/-- The state has the given guard, counter of expressions and kept types. -/
structure At (guard : Guard GuardKey) (depth : DepthCounter) (entries : Std.HashMap CacheKey Ty)
    (s : State) : Prop where
  guard_eq : s.guard = guard
  depth_eq : s.depth = depth
  entries_eq : s.cache.entries = entries

namespace At

variable {guard : Guard GuardKey} {depth : DepthCounter} {entries : Std.HashMap CacheKey Ty}
  {s s' : State} {ctx : Context}

theorem start (options : Options) (cache : Cache) :
    At (State.start options cache).guard (State.start options cache).depth cache.entries
      (State.start options cache) := ⟨rfl, rfl, rfl⟩

theorem noted (h : At guard depth entries s) (noted : Noted s s') : At guard depth entries s' :=
  ⟨noted.guard.trans h.guard_eq, noted.depth.trans h.depth_eq, noted.entries.trans h.entries_eq⟩

theorem withGuard (h : At guard depth entries s) (change : Guard GuardKey → Guard GuardKey) :
    At (change guard) depth entries { s with guard := change s.guard } :=
  ⟨congrArg change h.guard_eq, h.depth_eq, h.entries_eq⟩

theorem unlimited (h : At guard depth entries s) (guard_fine : guard.exceeded = false)
    (depth_fine : depth.exceeded = false) : s.limitMet = false := by
  rw [State.limitMet, h.guard_eq, h.depth_eq, guard_fine, depth_fine]
  rfl

theorem known?_eq (h : At guard depth entries s) (running : ctx.cancelled = false) (key : DeclKey) :
    (Task.decl key).known? ctx s = entries[cacheKey ctx key]? := by
  rw [Task.known?, running, h.entries_eq]
  rfl

/-- Inferring a declaration that is not kept opens a frame. -/
theorem decl (h : At guard depth entries s) (running : ctx.cancelled = false) (deeper : Solver)
    {key : DeclKey} (unkept : entries[cacheKey ctx key]? = none) (room : ¬ guard.Spent)
    (inactive : guard.position? (.decl key) = none) :
    ∃ inside done, At (guard.counted.pushed (.decl key)) depth entries inside ∧
      Noted (exec ((Rule.declType ctx key).run deeper) inside).2 done ∧
      exec (perform ctx deeper (.decl key)) s
        = (Task.decl key).close ctx (.decl key)
            (exec ((Rule.declType ctx key).run deeper) inside).1 done := by
  obtain ⟨inside, -, hinside, done, hdone, hrun⟩ := perform_inactive ctx deeper
    ((h.known?_eq running key).trans unkept) rfl (h.guard_eq ▸ room) (h.guard_eq ▸ inactive)
  exact ⟨inside, done, (h.withGuard (·.counted.pushed _)).noted hinside, hdone, hrun⟩

/-- A final type is instantiated and kept when its frame is closed. -/
theorem close (h : At guard depth entries s) (running : ctx.cancelled = false) {key : DeclKey}
    {ty bound : Ty} (unkept : entries[cacheKey ctx key]? = none)
    (guard_fine : guard.exceeded = false) (depth_fine : depth.exceeded = false)
    (final : (guard.leave (.decl key)).1 = false) (hbound : ty.instantiate ctx.bindings = bound) :
    ∃ after, (Task.decl key).close ctx (.decl key) ty s = (bound, after) ∧
      At (guard.leave (.decl key)).2 depth (entries.insert (cacheKey ctx key) bound) after := by
  refine ⟨_, (close_decl running (h.guard_eq ▸ final) (h.unlimited guard_fine depth_fine)
    ((h.known?_eq running key).trans unkept)).trans (Prod.ext hbound rfl), ?_, h.depth_eq, ?_⟩
  · rw [h.guard_eq]
  · rw [h.entries_eq, hbound]

/-- An expression is inferred one level deeper. -/
theorem expr (h : At guard depth entries s) (running : ctx.cancelled = false) (deeper : Solver)
    (file : FileId) (node : NodeRef) (expected : Option Ty) (room : depth.depth < depth.maxDepth) :
    ∃ inside, At guard { depth with depth := depth.depth + 1 } entries inside ∧
      exec (perform ctx deeper (.expr file node expected)) s
        = ((exec ((Rule.exprType ctx file node expected).run deeper) inside).1,
            { (exec ((Rule.exprType ctx file node expected).run deeper) inside).2 with
              depth := (exec ((Rule.exprType ctx file node expected).run deeper)
                inside).2.depth.leave }) := by
  have unknown : (Task.expr file node expected).known? ctx s = none := by
    rw [Task.known?, running]
    rfl
  rcases perform_nested ctx deeper unknown rfl with ⟨full, -⟩ | ⟨-, inside, -, rfl, r, rfl, hrun⟩
  · rw [h.depth_eq] at full
    omega
  · refine ⟨{ s with depth := { s.depth with depth := s.depth.depth + 1 } },
      ⟨h.guard_eq, ?_, h.entries_eq⟩, hrun⟩
    exact congrArg (fun d : DepthCounter => { d with depth := d.depth + 1 }) h.depth_eq

/-- Back at the level of the expression around it. -/
theorem leave (h : At guard { depth with depth := depth.depth + 1 } entries s) :
    At guard depth entries { s with depth := s.depth.leave } := by
  refine ⟨h.guard_eq, ?_, h.entries_eq⟩
  rw [h.depth_eq]
  rfl

end At

/-! ## Runs through whole frames -/

/-- From every state with the given guard and kept types, the step gives the answer and leads to
another guard and other kept types, at the same level of expressions. -/
def Leads (step : InferM Ty) (guard : Guard GuardKey) (depth : DepthCounter)
    (entries : Std.HashMap CacheKey Ty) (answer : Ty) (guard' : Guard GuardKey)
    (entries' : Std.HashMap CacheKey Ty) : Prop :=
  ∀ s, At guard depth entries s →
    ∃ after, exec step s = (answer, after) ∧ At guard' depth entries' after

section Leads

variable {ctx : Context} {deeper : Solver} {guard guard' guard'' : Guard GuardKey}
  {depth : DepthCounter} {entries entries' entries'' : Std.HashMap CacheKey Ty}
  {ty bound answer : Ty}

section Plans

variable {κ : Type} {solve : κ → InferM Ty}

theorem leads_done : Leads ((Plan.done ty).run solve) guard depth entries ty guard entries :=
  fun s h => ⟨s, rfl, h⟩

theorem leads_note {name : String} {next : Plan κ Ty}
    (h : Leads (next.run solve) guard depth entries ty guard' entries') :
    Leads ((Plan.note name next).run solve) guard depth entries ty guard' entries' :=
  fun s start => h _ (start.noted (noted_recordName s name))

theorem leads_ask {question : κ} {next : Ty → Plan κ Ty}
    (asked : Leads (solve question) guard depth entries answer guard' entries')
    (h : Leads ((next answer).run solve) guard' depth entries' ty guard'' entries'') :
    Leads ((Plan.ask question next).run solve) guard depth entries ty guard'' entries'' := by
  intro s start
  obtain ⟨middle, hrun, reached⟩ := asked s start
  rw [exec_run_ask, hrun]
  exact h middle reached

end Plans

theorem leads_expr (running : ctx.cancelled = false) {file : FileId} {node : NodeRef}
    (room : depth.depth < depth.maxDepth)
    (h : Leads ((Rule.exprType ctx file node none).run deeper) guard
      { depth with depth := depth.depth + 1 } entries ty guard' entries') :
    Leads (perform ctx deeper (.expr file node none)) guard depth entries ty guard' entries' := by
  intro s start
  obtain ⟨inside, entered, hrun⟩ := start.expr running deeper file node none room
  obtain ⟨after, hrule, reached⟩ := h inside entered
  rw [hrun, hrule]
  exact ⟨_, rfl, reached.leave⟩

/-- The type of a declaration that is not kept, where it is final and no limit is met. -/
theorem leads_decl (running : ctx.cancelled = false) {key : DeclKey}
    (unkept : entries[cacheKey ctx key]? = none) (room : ¬ guard.Spent)
    (inactive : guard.position? (.decl key) = none)
    (h : Leads ((Rule.declType ctx key).run deeper) (guard.counted.pushed (.decl key)) depth entries
      ty guard' entries')
    (unkept' : entries'[cacheKey ctx key]? = none) (guard_fine : guard'.exceeded = false)
    (depth_fine : depth.exceeded = false) (final : (guard'.leave (.decl key)).1 = false)
    (hbound : ty.instantiate ctx.bindings = bound) :
    Leads (perform ctx deeper (.decl key)) guard depth entries bound (guard'.leave (.decl key)).2
      (entries'.insert (cacheKey ctx key) bound) := by
  intro s start
  obtain ⟨inside, done, entered, noted, hrun⟩ := start.decl running deeper unkept room inactive
  obtain ⟨after, hrule, reached⟩ := h inside entered
  rw [hrule] at noted hrun
  rw [hrun]
  exact (reached.noted noted).close running unkept' guard_fine depth_fine final hbound

/-- A kept type is found. -/
theorem leads_kept (running : ctx.cancelled = false) {key : DeclKey}
    (kept : entries[cacheKey ctx key]? = some ty) :
    Leads (perform ctx deeper (.decl key)) guard depth entries ty guard entries := by
  intro s start
  obtain ⟨after, noted, hrun⟩ := perform_known ctx deeper ((start.known?_eq running key).trans kept)
  exact ⟨after, hrun, start.noted noted⟩

/-- A declaration that is being inferred further out is cut short. -/
theorem leads_cut (running : ctx.cancelled = false) {key : DeclKey} {index : Nat}
    (unkept : entries[cacheKey ctx key]? = none) (room : ¬ guard.Spent)
    (active : guard.position? (.decl key) = some index) :
    Leads (perform ctx deeper (.decl key)) guard depth entries .unknown
      (guard.counted.lowered index) entries := by
  intro s start
  obtain ⟨after, noted, hrun⟩ := perform_active ctx deeper
    ((start.known?_eq running key).trans unkept) rfl (start.guard_eq ▸ room)
    (start.guard_eq ▸ active)
  exact ⟨after, hrun, (start.withGuard (·.counted.lowered index)).noted noted⟩

/-- The type of a declaration in which a declaration further out was cut short: it is not kept. -/
theorem leads_provisional (running : ctx.cancelled = false) {key : DeclKey}
    (unkept : entries[cacheKey ctx key]? = none) (room : ¬ guard.Spent)
    (inactive : guard.position? (.decl key) = none)
    (h : Leads ((Rule.declType ctx key).run deeper) (guard.counted.pushed (.decl key)) depth entries
      ty guard' entries')
    (provisional : (guard'.leave (.decl key)).1 = true)
    (hbound : ty.instantiate ctx.bindings = bound) :
    Leads (perform ctx deeper (.decl key)) guard depth entries bound (guard'.leave (.decl key)).2
      entries' := by
  intro s start
  obtain ⟨inside, done, entered, noted, hrun⟩ := start.decl running deeper unkept room inactive
  obtain ⟨after, hrule, reached⟩ := h inside entered
  rw [hrule] at noted hrun
  have reached := reached.noted noted
  rw [hrun, Task.close, reached.guard_eq, provisional, Bool.true_or, Bool.true_or, if_pos rfl]
  exact ⟨_, Prod.ext hbound rfl, rfl, reached.depth_eq, reached.entries_eq⟩

/-- A declaration that has its type from its comment, where looking that up leads to nothing else:
the type is kept, and the guard has counted one attempt. -/
theorem leads_documented (running : ctx.cancelled = false) {key : DeclKey} {declared : Ty}
    {next : Ty → Ty}
    (rule : Rule.declType ctx key = Plan.ask (.resolve declared) fun found => .done (next found))
    (looked_up : Leads (deeper (.resolve declared)) (guard.counted.pushed (.decl key)) depth entries
      ty (guard.counted.pushed (.decl key)) entries)
    (unchanged : next ty = ty) (bound : ty.instantiate ctx.bindings = ty)
    (unkept : entries[cacheKey ctx key]? = none) (room : ¬ guard.Spent)
    (inactive : guard.position? (.decl key) = none) (guard_fine : guard.exceeded = false)
    (depth_fine : depth.exceeded = false) :
    Leads (perform ctx deeper (.decl key)) guard depth entries ty guard.counted
      (entries.insert (cacheKey ctx key) ty) := by
  have followed : Leads ((Rule.declType ctx key).run deeper) (guard.counted.pushed (.decl key))
      depth entries ty (guard.counted.pushed (.decl key)) entries := by
    rw [rule]
    refine leads_ask looked_up ?_
    rw [unchanged]
    exact leads_done
  have left := guard.counted.leave_pushed (.decl key)
  have performed := leads_decl running unkept room inactive followed unkept guard_fine depth_fine
    (congrArg Prod.fst left) bound
  rw [left] at performed
  exact performed

end Leads

/-! ## Asked for first -/

/-- Inferring a declaration that is not kept, before anything else: the state in which its rule is
followed is known, and so nothing of what the rule records is lost sight of. -/
theorem exec_performDecl_first {ctx : Context} {deeper : Solver} {key : DeclKey} {s s' : State}
    {ty : Ty} (running : ctx.cancelled = false) (idle : s.files = [])
    (unkept : s.cache.entries[cacheKey ctx key]? = none) (room : ¬ s.guard.Spent)
    (inactive : s.guard.position? (.decl key) = none)
    (inferred : exec ((Rule.declType ctx key).run deeper)
      { s with
        guard := s.guard.counted.pushed (.decl key)
        cache := { s.cache with misses := s.cache.misses + 1 }
        files := [key.file] } = (ty, s')) :
    exec (perform ctx deeper (.decl key)) s
      = (Task.decl key).close ctx (.decl key) ty { s' with files := s'.files.tail } := by
  obtain ⟨guard, depth, classes, cache, files⟩ := s
  cases idle
  let missing : State := ⟨guard, depth, classes, { cache with misses := cache.misses + 1 }, []⟩
  have before : (Task.decl key).before ctx ⟨guard, depth, classes, cache, []⟩ = missing := by
    -- no declaration is being inferred yet, so the file is recorded for none
    show (exec (cached (cacheKey ctx key)) ⟨guard, depth, classes, cache, []⟩).2 = missing
    simp only [exec, cached, Cache.get, StateT.run, unkept, Id.run, missing]
  have entered : exec (enter (.decl key)) missing
      = (.entered, { missing with guard := guard.counted.pushed (.decl key) }) := by
    rcases guard.enter_cases (.decl key) with
      ⟨spent, -⟩ | ⟨-, index, active, -⟩ | ⟨-, -, entered⟩
    · exact absurd spent room
    · cases active.symm.trans inactive
    · simp only [exec, enter, StateT.run, entered, Id.run, missing]
  have body : exec (inFile key.file ((Rule.declType ctx key).run deeper))
      { missing with guard := guard.counted.pushed (.decl key) }
      = (ty, { s' with files := s'.files.tail }) := by
    simp only [inFile, exec_bind, exec_modify, missing, inferred, exec_pure]
  have framed : exec (within (.decl key) (inFile key.file ((Rule.declType ctx key).run deeper)))
      missing
      = (some (ty, (s'.guard.leave (.decl key)).1),
          { s' with files := s'.files.tail, guard := (s'.guard.leave (.decl key)).2 }) := by
    simp only [within, exec_bind, entered, body]
    rfl
  have unknown : (Task.decl key).known? ctx ⟨guard, depth, classes, cache, []⟩ = none := by
    rw [Task.known?, running]
    exact unkept
  rw [(performDecl_eq ctx deeper unknown).2, before, framed]
  exact settle_leave ctx (.decl key) (.decl key) ty { s' with files := s'.files.tail }

end LuaTyping.Infer
