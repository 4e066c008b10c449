import LuaTyping.Proofs.Decl.Snapshot
import LuaTyping.Proofs.Decl.Walks
import LuaTyping.Proofs.Infer.Comparing
import LuaTyping.Proofs.Infer.Levels
import LuaTyping.Proofs.Infer.Replay

/-!
# Queries come to an end and leave no trace

There is no one measure that goes down in inference: goals lead through types, class chains, the
arguments of aliases and syntax, and nodes may refer to each other in a circle. But between one goal
and a goal inside it there is always a task for which a frame is opened, or an expression nested one
deeper. The limits admit only so many of these at a time, so the goals inside each other are
well-founded (`acc_calls`). What is opened is closed again, hence on return the state has the same
frames, the same nesting and the same files as before.

`inference_ends` says this for whatever may be asked, in every state that a query can be in, and
adds the recursions inside a rule that the limits of inference do not see: comparisons of types, and
walks through the scopes of a file.
-/

set_option autoImplicit false

namespace LuaTyping.Infer

/-! ## Goals inside goals -/

/-- The questions that are asked when a plan is followed, each with the state in which it is. -/
def Plan.asked {κ α : Type} (answer : κ → InferM Ty) : Plan κ α → State → List (κ × State)
  | .done _, _ => []
  | .note name next, s => next.asked answer (exec (recordName name) s).2
  | .ask question next, s =>
    (question, s) ::
      (next (exec (answer question) s).1).asked answer (exec (answer question) s).2

/-- Solving the second goal in its state leads to solving the first in its state: a task that the
second needs opens a frame, and there the rule of the task asks for the first. -/
def Calls (ctx : Context) (inner outer : Goal × State) : Prop :=
  ∃ task s inside, (task, s) ∈ (outer.1.plan ctx).asked (perform ctx (solve ctx)) outer.2 ∧
    task.inside? ctx s = some inside ∧ inner ∈ (task.rule ctx).asked (solve ctx) inside

theorem Ready.asked {ctx : Context} {levels : Nat} {κ α : Type} {answer : κ → InferM Ty}
    (balanced : Balanced answer) {plan : Plan κ α} {s : State} (ready : Ready ctx levels s)
    {question : κ} {s' : State} (mem : (question, s') ∈ plan.asked answer s) :
    Ready ctx levels s' := by
  induction plan generalizing s with
  | done result => cases mem
  | note name next ih => exact ih (ready.kept (Kept.of_noted (noted_recordName s name))) mem
  | ask asked next ih =>
    rcases List.mem_cons.mp mem with same | later
    · cases same
      exact ready
    · exact ih _ (ready.kept (balanced asked s)) later

/-- Goals lie inside each other to a finite depth. -/
theorem acc_calls {ctx : Context} {levels : Nat} {s : State} (ready : Ready ctx levels s)
    (goal : Goal) : Acc (Calls ctx) (goal, s) := by
  induction levels generalizing goal s with
  | zero => exact absurd ready.pos (Nat.lt_irrefl 0)
  | succ levels ih =>
    have balanced : Balanced (solve ctx) := balanced_solveWithin ctx _
    refine .intro _ fun ⟨inner, s'⟩ ⟨task, at_task, inside, needed, opened, asked⟩ => ?_
    have ready_task := ready.asked (balanced_perform ctx balanced) needed
    exact ih ((ready_task.opened opened).asked balanced asked) inner

/-! ## Requests -/

/-- What may be asked of a query. -/
inductive Request where
  /-- The type of a node. -/
  | nodeType (file : FileId) (node : NodeRef)
  /-- The type of a declaration. -/
  | declType (key : DeclKey)
  /-- The type of an expression, where a type may be expected of it. -/
  | exprType (file : FileId) (node : NodeRef) (expected : Option Ty)
  /-- A type with its references looked up. -/
  | resolved (ty : Ty)
  /-- The value of a class. -/
  | classValue (name : String)
  /-- The declarations that a node refers to. -/
  | references (file : FileId) (node : NodeRef)
  /-- Whether the first type is below the second. -/
  | isSubtype (a b : Ty)

namespace Request

/-- What a request is answered with. -/
abbrev Answer : Request → Type
  | .references _ _ => List DeclKey
  | .isSubtype _ _ => Bool
  | _ => Ty

/-- How a request is answered, where `solver` solves the goals that are asked for. -/
def ask (ctx : Context) (solver : Solver) : (request : Request) → InferM request.Answer
  | .nodeType file node => (Rule.nodeType ctx file node).run solver
  | .declType key => solver (.decl key)
  | .exprType file node expected => solver (.expr file node expected)
  | .resolved ty => solver (.resolve ty)
  | .classValue name => solver (.classValue name)
  | .references file node => (Rule.references ctx file node).run solver
  | .isSubtype a b => (Rule.isSubtype ctx a b).run solver

/-- A request is answered by following a rule. -/
theorem exists_rule (ctx : Context) (request : Request) :
    ∃ rule : Rule request.Answer, ∀ solver s,
      exec (request.ask ctx solver) s = exec (rule.run solver) s := by
  cases request with
  | nodeType file node => exact ⟨Rule.nodeType ctx file node, fun _ _ => rfl⟩
  | declType key => exact ⟨Rule.ask (.decl key), fun _ _ => rfl⟩
  | exprType file node expected => exact ⟨Rule.ask (.expr file node expected), fun _ _ => rfl⟩
  | resolved ty => exact ⟨Rule.ask (.resolve ty), fun _ _ => rfl⟩
  | classValue name => exact ⟨Rule.ask (.classValue name), fun _ _ => rfl⟩
  | references file node => exact ⟨Rule.references ctx file node, fun _ _ => rfl⟩
  | isSubtype a b => exact ⟨Rule.isSubtype ctx a b, fun _ _ => rfl⟩

end Request

/-- The keys that are active, the nesting of expressions and the files of the declarations being
inferred are the same. -/
structure State.Restored (before after : State) : Prop where
  guard : before.guard.Restored after.guard
  nesting : after.depth.depth = before.depth.depth
  files : after.files = before.files

theorem restored_run (ctx : Context) {α : Type} (rule : Rule α) (s : State) :
    s.Restored (exec (rule.run (solve ctx)) s).2 := by
  have kept := kept_run (balanced_solveWithin ctx (2 * ctx.options.maxDepth + 1)) rule s
  have grown := growing_run (growing_solveWithin ctx (2 * ctx.options.maxDepth + 1)) rule s
  exact ⟨⟨kept.visiting, kept.frames, kept.maxDepth⟩, kept.nesting, grown.files⟩

/-- Inference ends and leaves no trace.

* The walks through the scopes of every file end, for its declarations come from its tree.
* A comparison of types ends before the levels that its guard admits are used up.
* In every state in which a query solves goals, neither depth is above the limit, and the goals
  inside each other are well-founded. So a request is answered in the same way whatever stands below
  the levels that are left, and afterwards the state has the keys active, the nesting and the files
  that it had before. -/
theorem inference_ends (ctx : Context) (collected : ∀ file indexed,
      ctx.snapshot.file? file = some indexed →
        indexed.decls = .ofTree indexed.file indexed.tree) :
    (∀ file decls, ctx.snapshot.decls? file = some decls → decls.WalksEnd) ∧
    (∀ (nilStrict : Bool) (a b : Ty) (guard : Guard Subtyping.Key),
      guard.depth ≤ guard.maxDepth → ∀ rest,
        Subtyping.compare ⟨Rule.resolver ctx, nilStrict⟩ a b guard
          = (Subtyping.below ⟨Rule.resolver ctx, nilStrict⟩)^[guard.maxDepth + 1] rest a b guard) ∧
    ∀ levels s, Reachable ctx levels s →
      (s.guard.depth ≤ ctx.options.maxDepth ∧ s.depth.depth ≤ ctx.options.maxDepth) ∧
      (∀ goal, Acc (Calls ctx) (goal, s)) ∧
      ∀ request : Request,
        (∀ rest, exec (request.ask ctx ((solveStep ctx)^[levels] rest)) s
          = exec (request.ask ctx (solve ctx)) s) ∧
        s.Restored (exec (request.ask ctx (solve ctx)) s).2 := by
  refine ⟨?walks, fun nilStrict a b guard within rest => compare_eq_iterate _ rest a b within, ?_⟩
  case walks =>
    intro file decls found
    obtain ⟨indexed, in_file, rfl⟩ := Option.map_eq_some_iff.mp found
    rw [collected file indexed in_file]
    exact FileDecls.walksEnd_ofTree _ _
  intro levels s reachable
  have ready := reachable.ready
  refine ⟨⟨ready.guardRoom, ready.depthRoom⟩, acc_calls ready, fun request => ?_⟩
  obtain ⟨rule, same⟩ := request.exists_rule ctx
  constructor
  · intro rest
    rw [same, same]
    have all : Ready ctx (2 * ctx.options.maxDepth + 1) s := { ready with enough := by omega }
    exact (run_solve_eq_iterate rule rest ready all).symm
  · rw [same]
    exact restored_run ctx rule s

/-- A file with two expressions that no statement refers to: each is the other one in
parentheses. -/
def parensTree : Tree where
  nodes := #[⟨.paren (some 1), ⟨0, 1⟩, some 1⟩, ⟨.paren (some 0), ⟨2, 3⟩, some 0⟩,
    ⟨.block [], ⟨4, 5⟩, some 3⟩, ⟨.chunk (some 2), ⟨4, 7⟩, none⟩]
  docs := ∅
  root := some 3

/-- Inferring such an expression, where two expressions may be nested. -/
theorem inference_ends_parens :
    let ctx := Context.make (.ofFiles [⟨⟨1⟩, 1, parensTree, .ofTree ⟨1⟩ parensTree⟩])
      { Options.standard with maxDepth := 2 } .empty false
    let s := State.start ctx.options .empty
    (parensTree.form? (some 0) = some (.paren (some 1)) ∧
      parensTree.form? (some 1) = some (.paren (some 0))) ∧
    (FileDecls.ofTree ⟨1⟩ parensTree).WalksEnd ∧
    (∀ rest, Subtyping.compare ⟨Rule.resolver ctx, true⟩ .number .string Subtyping.freshGuard
      = (Subtyping.below ⟨Rule.resolver ctx, true⟩)^[Subtyping.freshGuard.maxDepth + 1] rest .number
          .string Subtyping.freshGuard) ∧
    Acc (Calls ctx) (.expr ⟨1⟩ (some 0) none, s) ∧
    s.Restored (exec (nodeType ctx ⟨1⟩ (some 0)) s).2 := by
  intro ctx s
  have distinct := List.pairwise_singleton (fun a b : IndexedFile => a.file ≠ b.file)
    ⟨⟨1⟩, 1, parensTree, .ofTree ⟨1⟩ parensTree⟩
  have collected : ∀ file indexed, ctx.snapshot.file? file = some indexed →
      indexed.decls = .ofTree indexed.file indexed.tree := by
    intro file indexed found
    have only := List.mem_of_find?_eq_some ((Snapshot.file?_ofFiles distinct file).symm.trans found)
    rw [List.mem_singleton.mp only]
  have found : ctx.snapshot.decls? ⟨1⟩ = some (.ofTree ⟨1⟩ parensTree) :=
    congrArg (Option.map IndexedFile.decls) (Snapshot.file?_ofFiles distinct ⟨1⟩)
  obtain ⟨walks, compared, states⟩ := inference_ends ctx collected
  obtain ⟨-, calls, requests⟩ := states _ s (Reachable.start .empty ∅)
  exact ⟨⟨rfl, rfl⟩, walks ⟨1⟩ _ found, compared true .number .string _ (Nat.zero_le _), calls _,
    (requests (.nodeType ⟨1⟩ (some 0))).2⟩

end LuaTyping.Infer
