import LuaTyping.Proofs.Infer.Alike
import LuaTyping.Proofs.Infer.Frames

/-!
# What a query answers and keeps

A rule is a plan that knows nothing of how its questions are answered. `Plan.Yields` says what a
plan answers if its questions are answered as they should be.

Whether the questions of a query are answered so is an induction over the levels of goals, with one
argument for all kinds of task. A `Contract` says what is to hold of the answers to tasks and goals
and of the states between them, and what has to be shown for that: of each rule by itself, of what
is answered without following a rule, and of what is kept. Nothing is asked about limits, circles or
the order of questions; a query keeps to a contract whatever is cut short or refused on the way.
-/

set_option autoImplicit false

namespace LuaTyping.Infer

/-! ## What a plan yields -/

namespace Plan

variable {κ α β : Type}

/-- The plan gives a good answer if every question is given one of its `answers`. -/
def Yields (answers : κ → Ty → Prop) (good : α → Prop) : Plan κ α → Prop
  | .done answer => good answer
  | .note _ next => next.Yields answers good
  | .ask question next => ∀ ty, answers question ty → (next ty).Yields answers good

namespace Yields

variable {answers : κ → Ty → Prop} {good : α → Prop} {good' : β → Prop}

theorem pure {answer : α} (h : good answer) : (Pure.pure answer : Plan κ α).Yields answers good := h

theorem bind {plan : Plan κ α} {f : α → Plan κ β} (h : plan.Yields answers good)
    (next : ∀ answer, good answer → (f answer).Yields answers good') :
    (plan >>= f).Yields answers good' := by
  induction plan with
  | done answer => exact next answer h
  | note name plan ih => exact ih h
  | ask question plan ih => exact fun ty answered => ih ty (h ty answered)

theorem weaken {good₂ : α → Prop} {plan : Plan κ α} (h : plan.Yields answers good)
    (imp : ∀ answer, good answer → good₂ answer) : plan.Yields answers good₂ := by
  induction plan with
  | done answer => exact imp answer h
  | note name plan ih => exact ih h
  | ask question plan ih => exact fun ty answered => ih ty (h ty answered)

theorem map {plan : Plan κ α} {f : α → β} (h : plan.Yields answers good)
    (imp : ∀ answer, good answer → good' (f answer)) : (f <$> plan).Yields answers good' := by
  rw [map_eq_pure_bind]
  exact h.bind fun answer hanswer => imp answer hanswer

theorem any (plan : Plan κ α) : plan.Yields answers fun _ => True := by
  induction plan with
  | done answer => trivial
  | note name plan ih => exact ih
  | ask question plan ih => exact fun ty _ => ih ty

theorem ite {c : Prop} [Decidable c] {yes no : Plan κ α} (hyes : yes.Yields answers good)
    (hno : no.Yields answers good) : (if c then yes else no).Yields answers good := by
  split
  · exact hyes
  · exact hno

theorem mapM {γ : Type} (good : α → Prop) {f : γ → Plan κ α} (xs : List γ)
    (h : ∀ x ∈ xs, (f x).Yields answers good) :
    (xs.mapM f).Yields answers fun as => ∀ a ∈ as, good a := by
  induction xs with
  | nil => exact pure nofun
  | cons x rest ih =>
    rw [List.mapM_cons]
    refine (h x List.mem_cons_self).bind fun a ha => ?_
    refine (ih fun y mem => h y (List.mem_cons_of_mem x mem)).bind fun as has => ?_
    exact pure (List.forall_mem_cons.mpr ⟨ha, has⟩)

theorem foldlM {γ : Type} {f : α → γ → Plan κ α} (xs : List γ)
    (h : ∀ a x, good a → (f a x).Yields answers good) {init : α} (hinit : good init) :
    (xs.foldlM f init).Yields answers good := by
  induction xs generalizing init with
  | nil => exact hinit
  | cons x rest ih =>
    rw [List.foldlM_cons]
    exact (h init x hinit).bind fun a ha => ih ha

end Yields

end Plan

/-! ## Contracts -/

/-- What is to hold of the answers and of the states between them. The state matters only in the
class values and the types that it keeps. -/
structure Contract (ctx : Context) where
  task : Task → Ty → Prop
  goal : Goal → Ty → Prop
  state : State → Prop
  of_eq : ∀ {s s' : State}, s'.classes = s.classes → s'.cache.entries = s.cache.entries →
    state s → state s'
  known : ∀ {asked : Task} {s : State} {ty : Ty}, state s → asked.known? ctx s = some ty →
    task asked ty
  fallback : ∀ asked : Task, task asked (asked.fallback ctx)
  unsolved : ∀ asked : Goal, goal asked .unknown
  rule : ∀ asked : Task, (asked.rule ctx).Yields goal (task asked)
  plan : ∀ asked : Goal, (asked.plan ctx).Yields task (goal asked)
  finished : ∀ {asked : Task} {ty : Ty}, task asked ty → task asked (asked.finished ctx ty)
  /-- A type that may be kept does no harm, and an earlier one that is kept instead is as good. -/
  store : ∀ {asked : Task} {key : GuardKey} {ty : Ty} {s : State}, asked.guardKey? = some key →
    task asked ty → state s →
      task asked (asked.store ctx ty s).1 ∧ state (asked.store ctx ty s).2

/-- A step gives a good answer and leaves a good state. -/
structure Gives {α : Type} (state : State → Prop) (good : α → Prop) (result : α × State) :
    Prop where
  answer : good result.1
  state : state result.2

namespace Contract

variable {ctx : Context} (contract : Contract ctx)

theorem noted {s s' : State} (h : contract.state s) (noted : Noted s s') : contract.state s' :=
  contract.of_eq noted.classes noted.entries h

theorem withGuard {s : State} (h : contract.state s) (guard : Guard GuardKey) :
    contract.state { s with guard } := contract.of_eq (s := s) rfl rfl h

theorem withDepth {s : State} (h : contract.state s) (depth : DepthCounter) :
    contract.state { s with depth } := contract.of_eq (s := s) rfl rfl h

/-- A way to answer questions that gives the right answers and leaves good states. -/
def Reliable {κ : Type} (answers : κ → Ty → Prop) (answer : κ → InferM Ty) : Prop :=
  ∀ question s, contract.state s →
    Gives contract.state (answers question) (exec (answer question) s)

variable {contract}

theorem gives_run {κ α : Type} {answers : κ → Ty → Prop} {answer : κ → InferM Ty}
    (reliable : contract.Reliable answers answer) {good : α → Prop} {plan : Plan κ α}
    (yields : plan.Yields answers good) {s : State} (h : contract.state s) :
    Gives contract.state good (exec (plan.run answer) s) := by
  induction plan generalizing s with
  | done result => exact ⟨yields, h⟩
  | note name next ih => exact ih yields (contract.noted h (noted_recordName s name))
  | ask question next ih =>
    have asked := reliable question s h
    exact ih _ (yields _ asked.answer) asked.state

theorem gives_close {task : Task} {key : GuardKey} (guarded : task.guardKey? = some key) {ty : Ty}
    (hty : contract.task task ty) {s : State} (h : contract.state s) :
    Gives contract.state (contract.task task) (task.close ctx key ty s) := by
  have finished := contract.finished hty
  have left := contract.withGuard h (s.guard.leave key).2
  rw [Task.close]
  split
  · exact ⟨finished, left⟩
  · obtain ⟨answer, state⟩ := contract.store guarded finished left
    exact ⟨answer, state⟩

theorem reliable_perform {deeper : Solver} (reliable : contract.Reliable contract.goal deeper) :
    contract.Reliable contract.task (perform ctx deeper) := by
  intro task s h
  have refused {after : State} (hafter : contract.state after) :
      Gives contract.state (contract.task task) (task.fallback ctx, after) :=
    ⟨contract.fallback task, hafter⟩
  cases known : task.known? ctx s with
  | some ty =>
    obtain ⟨after, noted, hrun⟩ := perform_known ctx deeper known
    rw [hrun]
    exact ⟨contract.known h known, contract.noted h noted⟩
  | none =>
    cases guarded : task.guardKey? with
    | some key =>
      rcases perform_guarded ctx deeper known guarded with
        ⟨-, -, after, noted, hrun⟩ | ⟨-, -, index, -, after, noted, hrun⟩ |
        ⟨-, -, inside, -, hinside, done, hdone, hrun⟩ <;> rw [hrun]
      · exact refused (contract.noted (contract.withGuard h _) noted)
      · exact refused (contract.noted (contract.withGuard h _) noted)
      · have computed := gives_run reliable (contract.rule task)
          (contract.noted (contract.withGuard h _) hinside)
        exact gives_close guarded computed.answer (contract.noted computed.state hdone)
    | none =>
      rcases perform_nested ctx deeper known guarded with
        ⟨-, -, hrun⟩ | ⟨-, inside, -, hinside, r, rfl, hrun⟩ <;> rw [hrun]
      · exact refused (contract.withDepth h _)
      · have opened : contract.state inside := hinside ▸ contract.withDepth h _
        have computed := gives_run reliable (contract.rule task) opened
        exact ⟨computed.answer, contract.withDepth computed.state _⟩

variable (contract)

theorem reliable_solveWithin (levels : Nat) :
    contract.Reliable contract.goal (solveWithin ctx levels) := by
  induction levels with
  | zero => exact fun goal s h => ⟨contract.unsolved goal, h⟩
  | succ levels ih => exact fun goal s h => gives_run (reliable_perform ih) (contract.plan goal) h

theorem reliable_solve : contract.Reliable contract.goal (solve ctx) :=
  contract.reliable_solveWithin _

end Contract

end LuaTyping.Infer
