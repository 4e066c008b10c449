import LuaTyping.Proofs.Decl.GlobalFiles
import LuaTyping.Proofs.Infer.Trace

/-!
# Globals documented by globals

Where the name of a global counts as a type, the comment of a global can say that it is a list of
another one, and inferring the first asks for the second. Where such comments run in a circle, a
declaration is met again inside its own frame.
-/

set_option autoImplicit false

namespace LuaTyping.Infer

/-! ## Lists of a global -/

/-- The name counts as a type, and it is the name of a global and of nothing else. -/
structure NamesGlobal (ctx : Context) (name : String) (key : DeclKey) : Prop where
  running : ctx.cancelled = false
  asType : ctx.options.globalNamesAsTypes = true
  no_class : ctx.snapshot.isClass name = false
  no_alias : ctx.snapshot.aliasDecls name = []
  global : ctx.snapshot.globalDecls name = [key]

section Lists

variable {ctx : Context} {name : String} {key other : DeclKey} {entry : Entry}

/-- Looking up a list of a global asks for the global. -/
theorem NamesGlobal.plan_eq (names : NamesGlobal ctx name key) :
    (Goal.resolve (.array (.aliasRef name []))).plan ctx
      = .note name (.note name (.ask (.decl key) fun ty => .done (.array (Ty.unionOf [ty])))) := by
  have expand : expandRef ctx name (pure [])
      = .note name (.note name (.ask (.decl key) fun ty => .done (Ty.unionOf [ty]))) := by
    simp only [expandRef, names.running, names.asType, names.no_class, names.no_alias, names.global]
    rfl
  show Plan.bind (expandRef ctx name (pure [])) _ = _
  rw [expand]
  rfl

/-- The rule of a global that has its type from its comment. -/
theorem declType_documented {declared : Ty} (found : ctx.snapshot.entry? key = some entry)
    (kind : entry.kind = .global) (documented : entry.declared = some declared)
    (alone : entry.overloads = []) :
    Rule.declType ctx key
      = Plan.ask (.resolve declared) fun ty => .done (Rule.withGenerics entry ty) := by
  simp only [Rule.declType, found, kind, Rule.variableType, documented, Rule.withOverloads, alone]
  rfl

/-- A global that is documented as a list of a global asks for that one. -/
theorem leads_list {levels : Nat} {guard guard' : Guard GuardKey} {depth : DepthCounter}
    {entries entries' : Std.HashMap CacheKey Ty} {ty : Ty}
    (found : ctx.snapshot.entry? key = some entry) (kind : entry.kind = .global)
    (documented : entry.declared = some (.array (.aliasRef name []))) (alone : entry.overloads = [])
    (names : NamesGlobal ctx name other)
    (asked : Leads (perform ctx (solveWithin ctx levels) (.decl other)) guard depth entries ty
      guard' entries') :
    Leads ((Rule.declType ctx key).run (solveWithin ctx (levels + 1))) guard depth entries
      (.array (Ty.unionOf [ty])) guard' entries' := by
  rw [declType_documented found kind documented alone]
  have listed : Leads (solveWithin ctx (levels + 1) (.resolve (.array (.aliasRef name [])))) guard
      depth entries (.array (Ty.unionOf [ty])) guard' entries' := by
    show Leads (((Goal.resolve _).plan ctx).run (perform ctx (solveWithin ctx levels))) guard depth
      entries _ guard' entries'
    rw [names.plan_eq]
    exact leads_note (leads_note (leads_ask asked leads_done))
  exact leads_ask listed leads_done

end Lists

/-! ## A project of one file of globals -/

namespace GlobalsProject

open GlobalsTree

variable {globals : List DocumentedGlobal}

/-- The project of the file, under the standard options. -/
def context (globals : List DocumentedGlobal) : Context :=
  .make (.ofFiles [indexed ⟨1⟩ 1 globals]) .standard .empty false

theorem file?_eq (globals : List DocumentedGlobal) :
    (context globals).snapshot.file? ⟨1⟩ = some (indexed ⟨1⟩ 1 globals) :=
  Snapshot.file?_singleton (indexed ⟨1⟩ 1 globals)

theorem entry?_eq {global : DocumentedGlobal} {i : Nat} (found : globals[i]? = some global) :
    (context globals).snapshot.entry? ⟨⟨1⟩, i⟩ = some (entry global i) :=
  (Snapshot.entry?_of_file? (file?_eq globals) i).trans (entry?_ofTree ⟨1⟩ found)

theorem namesGlobal {name : String} {i : Nat}
    (only : (globals.zipIdx.filter fun p => p.1.1 == name).map Prod.snd = [i]) :
    NamesGlobal (context globals) name ⟨⟨1⟩, i⟩ where
  running := rfl
  asType := rfl
  no_class := by
    show (Snapshot.ofFiles [indexed ⟨1⟩ 1 globals]).isClass _ = false
    rw [Snapshot.isClass_ofFiles, Snapshot.classDecls_ofFiles]
    simp [listed_eq]
  no_alias := by
    show (Snapshot.ofFiles [indexed ⟨1⟩ 1 globals]).aliasDecls _ = []
    rw [Snapshot.aliasDecls_ofFiles]
    simp [listed_eq]
  global := by
    have keyed := congrArg (List.map fun i => DeclKey.mk ⟨1⟩ i) only
    rw [List.map_map] at keyed
    show (Snapshot.ofFiles [indexed ⟨1⟩ 1 globals]).globalDecls _ = _
    rw [Snapshot.globalDecls_ofFiles, List.flatMap_singleton, listed_eq, if_pos rfl]
    exact keyed

section Nodes

variable {i : Nat} (there : i < globals.length)
include there

/-- The rule of the node of a global. -/
theorem nodeType_rule : Rule.nodeType (context globals) ⟨1⟩ (some (3 * i))
    = Plan.ask (.decl ⟨⟨1⟩, i⟩) fun ty => .ask (.resolve ty) fun ty => .done ty.eraseRefs := by
  rw [Rule.nodeType, Snapshot.decls?_of_file? (file?_eq globals), Option.bind_some, indexed,
    declForNode?_eq ⟨1⟩ there]
  rfl

/-- The node of a global has the type of the global. -/
theorem exec_nodeType {ty : Ty} {s after : State} (plain : ty.containsAlias = false)
    (hrun : exec (perform (context globals) (solveWithin (context globals) 1000)
      (.decl ⟨⟨1⟩, i⟩)) s = (ty, after)) :
    exec (nodeType (context globals) ⟨1⟩ (some (3 * i))) s = (ty, after) := by
  have resolved : (Goal.resolve ty).plan (context globals) = .done ty := by
    rw [Goal.plan, Ty.expandM, plain]
    rfl
  have asked : exec (solve (context globals) (.decl ⟨⟨1⟩, i⟩)) s = (ty, after) := hrun
  have looked_up : exec (solve (context globals) (.resolve ty)) after = (ty, after) := by
    show exec (((Goal.resolve ty).plan (context globals)).run _) after = _
    rw [resolved]
    rfl
  rw [nodeType, nodeType_rule there]
  simp only [exec_run_ask, asked, looked_up, exec_run_done, Ty.eraseRefs, plain]
  rfl

end Nodes

end GlobalsProject

end LuaTyping.Infer
