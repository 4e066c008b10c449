import LuaTyping.Proofs.Infer.Alone
import LuaTyping.Proofs.Infer.ClassValues

/-!
# A declaration that passes an answer on

An undocumented variable takes its type from one expression. The expression is then inferred inside
the frame of the variable, and nothing but the frame tells this from a query for the expression
alone. The frame matters only if the variable is needed again: then the query comes back to it, and
is cut short there. Otherwise the two run side by side, with the one frame of the variable outside,
and the type of the variable is made of the type that the expression has in a query of its own.
-/

set_option autoImplicit false

namespace LuaTyping.Infer

open Guard

theorem Kept.active {before after : State} (kept : Kept before after) {key : GuardKey}
    (active : before.guard.position? key ≠ none) : after.guard.position? key ≠ none := by
  rwa [position?, kept.visiting]

/-! ## What is under way is not kept -/

/-- While the task is under way, the answers do not make it known. -/
def Withholds {κ : Type} (ctx : Context) (task : Task) (key : GuardKey) (answer : κ → InferM Ty) :
    Prop :=
  ∀ question s, s.guard.position? key ≠ none → task.known? ctx s = none →
    task.known? ctx (exec (answer question) s).2 = none

section Withholds

variable {ctx : Context} {task : Task} {key : GuardKey}

theorem withheld_run {κ α : Type} {answer : κ → InferM Ty} (balanced : Balanced answer)
    (withholds : Withholds ctx task key answer) (plan : Plan κ α) {s : State}
    (active : s.guard.position? key ≠ none) (unknown : task.known? ctx s = none) :
    task.known? ctx (exec (plan.run answer) s).2 = none := by
  induction plan generalizing s with
  | done result => exact unknown
  | note name next ih =>
    have noted := noted_recordName s name
    exact ih ((Kept.of_noted noted).active active)
      ((task.known?_congr ctx noted.classes noted.entries).trans unknown)
  | ask question next ih =>
    exact ih _ ((balanced question s).active active) (withholds question s active unknown)

variable (running : ctx.cancelled = false) (guarded : task.guardKey? = some key)
include running guarded

theorem withholds_perform {deeper : Solver} (balanced : Balanced deeper)
    (withholds : Withholds ctx task key deeper) : Withholds ctx task key (perform ctx deeper) := by
  intro other s active unknown
  have noted {after : State} (guard : Guard GuardKey) (h : Noted { s with guard } after) :
      task.known? ctx after = none := (task.known?_congr ctx h.classes h.entries).trans unknown
  cases known : other.known? ctx s with
  | some ty =>
    obtain ⟨after, h, hrun⟩ := perform_known ctx deeper known
    rw [hrun]
    exact noted s.guard h
  | none =>
    cases other_guarded : other.guardKey? with
    | some other_key =>
      rcases perform_guarded ctx deeper known other_guarded with
        ⟨-, -, after, h, hrun⟩ | ⟨-, -, index, -, after, h, hrun⟩ |
        ⟨-, inactive, inside, -, hinside, done, hdone, hrun⟩ <;> rw [hrun]
      · exact noted _ h
      · exact noted _ h
      · -- the task is under way, so the frame that was opened is not its own
        have apart : task ≠ other := by
          rintro rfl
          cases guarded.symm.trans other_guarded
          exact active inactive
        have active' : inside.guard.position? key ≠ none := by
          rw [hinside.guard]
          show List.lookup key ((other_key, s.guard.depth) :: s.guard.visiting) ≠ none
          rw [List.lookup_cons]
          split
          · simp
          · exact active
        have ran := withheld_run balanced withholds (other.rule ctx) active' (noted _ hinside)
        have left : task.known? ctx { done with guard := (done.guard.leave other_key).2 } = none :=
          (task.known?_congr ctx hdone.classes hdone.entries).trans ran
        rw [Task.close]
        split
        · exact left
        · refine Option.eq_none_iff_forall_ne_some.mpr fun ty kept => ?_
          rcases known?_store running kept with before | ⟨same, -⟩
          · cases left.symm.trans before
          · exact apart same
    | none =>
      rcases perform_nested ctx deeper known other_guarded with
        ⟨-, -, hrun⟩ | ⟨-, _, -, rfl, r, rfl, hrun⟩ <;> rw [hrun]
      · exact (task.known?_congr ctx rfl rfl).trans unknown
      · have deepened : task.known? ctx
            { s with depth := { s.depth with depth := s.depth.depth + 1 } } = none :=
          (task.known?_congr ctx rfl rfl).trans unknown
        exact (task.known?_congr ctx rfl rfl).trans
          (withheld_run balanced withholds (other.rule ctx) active deepened)

theorem withholds_solveWithin (levels : Nat) :
    Withholds ctx task key (solveWithin ctx levels) := by
  induction levels with
  | zero => exact fun _ _ _ unknown => unknown
  | succ levels ih =>
    have balanced := balanced_solveWithin ctx levels
    exact fun goal s active unknown => withheld_run (balanced_perform ctx balanced)
      (withholds_perform running guarded balanced ih) (goal.plan ctx) active unknown

end Withholds

/-! ## One frame further out -/

/-- The state inside the only open frame is the one in which a query starts, above one frame. -/
theorem aligned_inside {options : Options} {cache : Cache} {key : GuardKey} {inside : State}
    (hinside : Noted { State.start options cache with
      guard := (State.start options cache).guard.counted.pushed key } inside) :
    Aligned 1 [(key, 0)] inside (.start options cache) := by
  refine Aligned.noted (s := { State.start options cache with
    guard := (State.start options cache).guard.counted.pushed key }) ?_ hinside (Noted.refl _)
  exact {
    visiting := rfl
    frames := ⟨[], [none], [], rfl, rfl, rfl⟩
    floor := rfl
    maxDepth := rfl
    maxIterations := rfl
    iterations := Nat.zero_le _
    nesting := Nat.le_refl _
    maxNesting := rfl
    unlimited := ⟨rfl, rfl⟩
    classes := rfl
    entries := rfl }

theorem limitMet_close {ctx : Context} {task : Task} {key : GuardKey} {s done : State}
    (framed : Framed key s done) (ty : Ty) :
    (task.close ctx key ty done).2.limitMet = done.limitMet := by
  have left : State.limitMet { done with guard := (done.guard.leave key).2 } = done.limitMet := by
    rw [framed.leave_eq]
    rfl
  rw [Task.close]
  split
  · exact left
  · cases task <;> exact left

/-- Inferring the declaration, with nothing else under way, comes back to it: it is needed while its
own rule is followed, and the circle is cut at its frame. -/
def ComesBack (ctx : Context) (cache : Cache) (key : DeclKey) : Prop :=
  ∃ inside, (Task.decl key).inside? ctx (.start ctx.options cache) = some inside ∧
    Reaches (exec ((Rule.declType ctx key).run (solveWithin ctx (2 * ctx.options.maxDepth)))
      inside).2.guard.cycleFloor 1

/-- The rule of a declaration asks one question and makes its type of the answer. If inferring the
declaration meets no limit and does not come back to it, the answer is the one that the question has
in a query of its own over the same kept types. -/
theorem solve_decl_of_ask {ctx : Context} (running : ctx.cancelled = false) {key : DeclKey}
    {goal : Goal} {f : Ty → Ty}
    (rule : Rule.declType ctx key = Plan.ask goal fun ty => .done (f ty)) {cache : Cache}
    (unkept : cache.entries[cacheKey ctx key]? = none)
    (unlimited : (exec (solve ctx (.decl key)) (.start ctx.options cache)).2.limitMet = false)
    (straight : ¬ ComesBack ctx cache key) :
    (exec (solve ctx (.decl key)) (.start ctx.options cache)).1
      = (f (exec (solve ctx goal) (.start ctx.options cache)).1).instantiate ctx.bindings := by
  have ready := ready_idle ctx cache ∅
  have balanced := balanced_solveWithin ctx (2 * ctx.options.maxDepth)
  have known : (Task.decl key).known? ctx (.start ctx.options cache) = none := by
    rw [Task.known?, running]
    exact unkept
  rcases perform_guarded ctx (solveWithin ctx (2 * ctx.options.maxDepth)) known rfl with
    ⟨-, -, after, noted, hrun⟩ | ⟨-, -, index, active, -⟩ |
    ⟨room, -, inside, opened, hinside, done, hdone, hrun⟩
  · have met : after.limitMet = true := (Kept.of_noted noted).limit rfl
    have unlimited : (exec (perform ctx _ (.decl key)) _).2.limitMet = false := unlimited
    rw [hrun, met] at unlimited
    cases unlimited
  · cases active
  have framed := framed_of_kept hinside (kept_run balanced _ _) hdone
  have unlimited : done.limitMet = false := by
    have unlimited : (exec (perform ctx _ (.decl key)) _).2.limitMet = false := unlimited
    rwa [hrun, limitMet_close framed] at unlimited
  have rule : (Task.decl key).rule ctx = Plan.ask goal fun ty => .done (f ty) := rule
  -- inside the frame the question is asked as it is outside
  have agree := @inStep_solveWithin ctx 1 [(.decl key, 0)] (List.forall_mem_singleton.mpr
    Nat.one_pos) (2 * ctx.options.maxDepth) (2 * ctx.options.maxDepth + 1) goal inside _
    (aligned_inside hinside) (ready.inside room hinside) ready
  rcases agree with escaped | ⟨same, -⟩
  · have escaped : Escaped 1 done := by
      refine Escaped.kept ?_ (Kept.of_noted hdone)
      rw [rule]
      exact escaped
    rcases escaped with limit | reaches | ⟨floor, mem, -⟩
    · simp [unlimited] at limit
    · exact absurd ⟨inside, opened, hdone.guard ▸ reaches⟩ straight
    · rw [Guard.depth, framed.frames] at mem
      cases mem
  · have unkept : (Task.decl key).known? ctx
        { done with guard := (done.guard.leave (.decl key)).2 } = none := by
      refine ((Task.decl key).known?_congr ctx hdone.classes hdone.entries).trans ?_
      refine withheld_run balanced (withholds_solveWithin running rfl _) _ ?_ ?_
      · rw [hinside.guard]
        simp [position?, pushed]
      · exact ((Task.decl key).known?_congr ctx hinside.classes hinside.entries).trans known
    show (exec (perform ctx _ (.decl key)) _).1 = _
    rw [hrun, Task.close, leave_alone framed, running, unlimited]
    rcases store_answer running (.decl key) _
      { done with guard := (done.guard.leave (.decl key)).2 } with stored | kept
    · refine stored.trans ?_
      show _ = (f (exec (solveWithin ctx (2 * ctx.options.maxDepth + 1) goal) _).1).instantiate _
      rw [rule, ← same]
      rfl
    · cases unkept.symm.trans kept

/-! ## Where the rules determine the declaration -/

/-- Where the rules determine the declaration, they determine what its rule asks for. -/
theorem determines_decl_of_ask {ctx : Context} {key : DeclKey} {goal : Goal} {f : Ty → Ty}
    (rule : Rule.declType ctx key = Plan.ask goal fun ty => .done (f ty)) {ty : Ty}
    (determined : (Rule.ask (.decl key)).Determines ctx ty) :
    ∃ value, (Rule.ask goal).Determines ctx value ∧ ty = (f value).instantiate ctx.bindings := by
  obtain ⟨levels, eval⟩ := determined
  have eval := (Plan.eval_question (Goal.decl key)).symm.trans eval
  cases levels with
  | zero => cases eval
  | succ levels =>
    have ground : ((Rule.declType ctx key).eval (groundWithin ctx levels [.decl key])).map
        (fun ty => ty.instantiate ctx.bindings) = some ty :=
      (groundWithin_task ctx levels [] (.decl key)).symm.trans eval
    rw [rule] at ground
    obtain ⟨_, followed, rfl⟩ := Option.map_eq_some_iff.mp ground
    obtain ⟨value, asked, answer⟩ := Option.bind_eq_some_iff.mp followed
    cases answer
    refine ⟨value, ⟨levels, (Plan.eval_question goal).trans ?_⟩, rfl⟩
    exact groundWithin_mono ctx (Nat.le_refl levels) _ _ _ _ (List.nil_subset _) asked

theorem Sound.solve_eq {ctx : Context} (running : ctx.cancelled = false) {cache : Cache}
    (sound : Sound ctx (.start ctx.options cache)) {goal : Goal} {ty : Ty}
    (determined : (Rule.ask goal).Determines ctx ty)
    (unlimited : (exec (solve ctx goal) (.start ctx.options cache)).2.limitMet = false) :
    (exec (solve ctx goal) (.start ctx.options cache)).1 = ty :=
  (tracks_query running (Rule.ask goal) sound).2 ty determined unlimited

/-! ## The type of a node -/

/-- What is asked for the type of a node: its declaration, and otherwise the expression. -/
def nodeGoal (ctx : Context) (file : FileId) (node : NodeRef) : Goal :=
  match (ctx.snapshot.decls? file).bind fun decls => decls.declForNode? node with
  | some decl => .decl ⟨file, decl⟩
  | none => .expr file node none

/-- The type of a node is the answer to its goal. Everything that is kept is resolved, so the answer
is, and looking it up once more changes nothing. -/
theorem exec_nodeType_eq {ctx : Context} (running : ctx.cancelled = false)
    (bindings : ctx.bindings.Resolved) (file : FileId) (node : NodeRef) {s : State}
    (kept : s.Resolved) :
    exec (nodeType ctx file node) s = exec (solve ctx (nodeGoal ctx file node)) s := by
  have rule : Rule.nodeType ctx file node
      = Plan.ask (nodeGoal ctx file node) fun ty =>
          .ask (.resolve ty) fun ty => .done ty.eraseRefs := by
    rw [Rule.nodeType, running]
    rfl
  have resolved : (nodeGoal ctx file node).Resolved := by
    rw [nodeGoal]
    split
    · trivial
    · intro expected given
      cases given
  generalize nodeGoal ctx file node = goal at rule resolved ⊢
  have answer : (exec (solve ctx goal) s).1.Resolved :=
    (reliable_solveWithin bindings _ goal s kept).answer resolved
  have plan : (Goal.resolve (exec (solve ctx goal) s).1).plan ctx
      = .done (exec (solve ctx goal) s).1 := by
    rw [Goal.plan, Ty.expandM, answer]
    rfl
  have looked_up (after : State) : exec (solve ctx (.resolve (exec (solve ctx goal) s).1)) after
      = ((exec (solve ctx goal) s).1, after) := by
    show exec (((Goal.resolve _).plan ctx).run _) after = _
    rw [plan]
    rfl
  rw [nodeType, rule, exec_run_ask, exec_run_ask, looked_up, exec_run_done, answer.eraseRefs_eq]

end LuaTyping.Infer
