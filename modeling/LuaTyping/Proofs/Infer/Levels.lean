import LuaTyping.Proofs.Infer.Alone
import Mathlib.Logic.Function.Iterate

/-!
# Levels are not used up

Goals are solved level by level, and below the last level nothing is known. That bottom is there so
that the recursion is one over a number; it is never reached. Carrying out a task goes on to the
next level only from inside a frame or a nested expression (`perform_congr`), and `Ready` counts how
many more of these the limits admit. So whatever stood in place of the bottom, and however many
levels there were beyond the needed ones, every goal is solved in the same way.
-/

set_option autoImplicit false

namespace LuaTyping.Infer

/-! ## One level -/

/-- One level: the tasks that a goal needs are carried out, and `deeper` solves what their rules ask
for. -/
def solveStep (ctx : Context) (deeper : Solver) : Solver :=
  fun goal => (goal.plan ctx).run (perform ctx deeper)

/-- The levels are the recursion followed down to where nothing is known. -/
theorem solveWithin_eq_iterate (ctx : Context) (levels : Nat) :
    solveWithin ctx levels = (solveStep ctx)^[levels] fun _ => pure .unknown := by
  induction levels with
  | zero => rfl
  | succ levels ih => rw [Function.iterate_succ_apply', ← ih]; rfl

section Congruence

variable {α : Type}

theorem exec_inFile_congr {file : FileId} {body body' : InferM α} {s : State}
    (h : exec body { s with files := file :: s.files }
      = exec body' { s with files := file :: s.files }) :
    exec (inFile file body) s = exec (inFile file body') s := by
  simp only [inFile, exec_bind, exec_modify, h]

theorem exec_within_congr {key : GuardKey} {body body' : InferM α} {s : State}
    (h : ∀ guard, s.guard.enter key = (.entered, guard) →
      exec body { s with guard } = exec body' { s with guard }) :
    exec (within key body) s = exec (within key body') s := by
  have attempt : exec (enter key) s
      = ((s.guard.enter key).1, { s with guard := (s.guard.enter key).2 }) := rfl
  simp only [within, exec_bind, attempt]
  rcases entered : s.guard.enter key with ⟨admission, guard⟩
  cases admission with
  | entered => simp only [exec_bind, h guard entered]
  | _ => rfl

theorem exec_nested_congr {body body' : InferM α} {s : State}
    (h : ∀ depth, s.depth.enter = (true, depth) →
      exec body { s with depth } = exec body' { s with depth }) :
    exec (nested body) s = exec (nested body') s := by
  simp only [nested, exec_bind, exec_get]
  rcases entered : s.depth.enter with ⟨_ | _, depth⟩
  · rfl
  · simp only [exec_bind, exec_modify, h depth entered]

end Congruence

/-- No goal is solved for a task whose answer is known. -/
theorem perform_of_known (ctx : Context) (deeper deeper' : Solver) {task : Task} {s : State}
    {ty : Ty} (known : task.known? ctx s = some ty) :
    exec (perform ctx deeper task) s = exec (perform ctx deeper' task) s := by
  cases task with
  | decl key =>
    simp only [Task.known?] at known
    simp only [perform, performDecl, exec_ite]
    split at known
    · rename_i cancelled
      rw [if_pos cancelled, if_pos cancelled]
    · rename_i running
      obtain ⟨after, -, hcached⟩ := exec_cached (exec (recordFile key.file) s).2 (cacheKey ctx key)
      rw [(noted_recordFile s key.file).entries, known] at hcached
      simp only [if_neg running, exec_bind, hcached]
  | expr file node expected =>
    simp only [Task.known?] at known
    split at known
    · rename_i cancelled
      simp only [perform, performExpr, if_pos cancelled]
    · cases known
  | classValue name =>
    have built : (exec (recordName name) s).2.classes[name]? = some ty := by
      rw [(noted_recordName s name).classes]
      exact known
    simp only [perform, performClass, exec_bind, exec_get, built]
  | expansion name file target => cases known

/-- What carrying out a task comes to depends on the goals inside it only through the run of its
rule in the frame that it opens. -/
theorem perform_congr (ctx : Context) {deeper deeper' : Solver} {task : Task} {s : State}
    (h : ∀ inside, task.inside? ctx s = some inside →
      exec ((task.rule ctx).run deeper) inside = exec ((task.rule ctx).run deeper') inside) :
    exec (perform ctx deeper task) s = exec (perform ctx deeper' task) s := by
  cases known : task.known? ctx s with
  | some ty => exact perform_of_known ctx deeper deeper' known
  | none =>
    simp only [Task.inside?, known] at h
    cases task with
    | decl key =>
      rw [(performDecl_eq ctx deeper known).2, (performDecl_eq ctx deeper' known).2]
      refine congrArg _ (exec_within_congr fun guard entered => exec_inFile_congr (h _ ?_))
      simp only [Task.guardKey?, enteredWith, entered]
      rfl
    | expr file node expected =>
      have alike : exec (nested ((Rule.exprType ctx file node expected).run deeper)) s
          = exec (nested ((Rule.exprType ctx file node expected).run deeper')) s :=
        exec_nested_congr fun depth entered => h _ (by simp only [Task.guardKey?, entered])
      simp only [perform, performExpr, exec_ite, exec_bind, alike]
    | classValue name =>
      rw [(performClass_eq ctx deeper known).2, (performClass_eq ctx deeper' known).2]
      refine congrArg _ (exec_within_congr fun guard entered => h _ ?_)
      simp only [Task.guardKey?, enteredWith, entered]
      rfl
    | expansion name file target =>
      rw [performExpansion_eq, performExpansion_eq]
      refine congrArg _ (exec_within_congr fun guard entered => h _ ?_)
      simp only [Task.guardKey?, Task.before, enteredWith, entered]
      rfl

/-! ## Enough levels -/

/-- More levels are enough, too. -/
theorem Ready.mono {ctx : Context} {levels more : Nat} {s : State} (h : Ready ctx levels s)
    (le : levels ≤ more) : Ready ctx more s := by
  have := h.enough
  exact ⟨by omega, h.guardLimit, h.attempts, h.depthLimit, h.guardRoom, h.depthRoom, h.positions⟩

/-- Plans run alike if their questions are answered alike wherever there are enough levels. -/
theorem exec_run_of_ready {ctx : Context} {levels more : Nat} {κ α : Type}
    {answer answer' : κ → InferM Ty} (balanced : Balanced answer)
    (h : ∀ question s, Ready ctx levels s → Ready ctx more s →
      exec (answer question) s = exec (answer' question) s)
    (plan : Plan κ α) {s : State} (ready : Ready ctx levels s) (ready' : Ready ctx more s) :
    exec (plan.run answer) s = exec (plan.run answer') s := by
  induction plan generalizing s with
  | done result => rfl
  | note name next ih =>
    have noted := Kept.of_noted (noted_recordName s name)
    exact ih (ready.kept noted) (ready'.kept noted)
  | ask question next ih =>
    have kept := balanced question s
    rw [exec_run_ask, exec_run_ask, ← h question s ready ready']
    exact ih _ (ready.kept kept) (ready'.kept kept)

/-- With enough levels nothing below the last one matters, nor how many levels there are. -/
theorem solve_eq_iterate {ctx : Context} (rest : Solver) {levels more : Nat} {s : State}
    (ready : Ready ctx levels s) (ready' : Ready ctx more s) (goal : Goal) :
    exec (solveWithin ctx more goal) s = exec ((solveStep ctx)^[levels] rest goal) s := by
  induction levels generalizing more s goal with
  | zero => exact absurd ready.pos (Nat.lt_irrefl 0)
  | succ levels ih =>
    obtain ⟨more, rfl⟩ : ∃ fewer, more = fewer + 1 := ⟨more - 1, by have := ready'.pos; omega⟩
    rw [Function.iterate_succ_apply']
    refine exec_run_of_ready (balanced_perform ctx (balanced_solveWithin ctx more))
      (fun task s ready ready' => perform_congr ctx fun inside opened => ?_) _ ready ready'
    -- a frame was opened, so one level less is enough inside it
    exact exec_run_of_ready (balanced_solveWithin ctx more)
      (fun goal s ready ready' => ih ready ready' goal) _ (ready.opened opened)
      (ready'.opened opened)

/-- The same for whatever asks for goals. -/
theorem run_solve_eq_iterate {ctx : Context} {α : Type} (rule : Rule α) (rest : Solver)
    {levels more : Nat} {s : State} (ready : Ready ctx levels s) (ready' : Ready ctx more s) :
    exec (rule.run (solveWithin ctx more)) s = exec (rule.run ((solveStep ctx)^[levels] rest)) s :=
  exec_run_of_ready (balanced_solveWithin ctx more)
    (fun goal _ ready ready' => solve_eq_iterate rest ready ready' goal) rule ready ready'

theorem run_solveWithin_eq {ctx : Context} {α : Type} (rule : Rule α) {levels more : Nat}
    {s : State} (ready : Ready ctx levels s) (ready' : Ready ctx more s) :
    exec (rule.run (solveWithin ctx more)) s = exec (rule.run (solveWithin ctx levels)) s := by
  rw [run_solve_eq_iterate rule (fun _ => pure .unknown) ready ready', ← solveWithin_eq_iterate]

end LuaTyping.Infer
