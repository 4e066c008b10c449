import LuaTyping.Proofs.Decl.Edit
import LuaTyping.Proofs.Infer.Affected
import LuaTyping.Proofs.Infer.Replay
import LuaTyping.Proofs.Infer.Trace
import LuaTyping.Proofs.Workspace.History

/-!
# Edits

An edit drops the kept types that may depend on the old or the new version of the file, and leaves
the others. The cache is coherent if every type that is found for a declaration is the one that is
inferred for it with an empty cache. An edit keeps it coherent, if what inferring the kept types
reads was recorded and if the edit leaves alone what is read without being recorded: the supertypes
of classes, the members that names inside methods refer to, and whether the names that iterate over
tables are declared.

The last of these is enough to break it. The second part has a loop over a table whose variable
keeps its type when the name that iterates is declared in another file.
-/

set_option autoImplicit false

namespace LuaTyping

open Infer

/-- A change of one file. -/
inductive Edit where
  | set (file : FileId) (tree : Tree)
  | remove (file : FileId)

/-- The file that is changed. -/
def Edit.file : Edit → FileId
  | .set file _ => file
  | .remove file => file

namespace Workspace

/-- The workspace after an edit. -/
def afterEdit (workspace : Workspace) : Edit → Workspace
  | .set file tree => (workspace.setFile file tree).2
  | .remove file => (workspace.removeFile file).2

/-- The workspaces that are made by edits and questions, in any order. -/
inductive Reachable : Workspace → Prop
  | start (options : Options) : Reachable (ofOptions options)
  | edit {workspace : Workspace} (h : Reachable workspace) (edit : Edit) :
      Reachable (workspace.afterEdit edit)
  | query {workspace : Workspace} (h : Reachable workspace) (query : Query) :
      Reachable (workspace.afterQuery query)
  | snapshot {workspace : Workspace} (h : Reachable workspace) : Reachable workspace.snapshot.2
  | clearCache {workspace : Workspace} (h : Reachable workspace) : Reachable workspace.clearCache

/-- Inferring the type of a declaration over the current files with an empty cache. -/
def declRun (workspace : Workspace) (key : DeclKey) : Ty × State :=
  exec (solve workspace.context (.decl key)) (State.start workspace.options .empty)

/-- Every type that is found for a declaration is the one that is inferred for it with an empty
cache, unless a limit is met there. -/
def Coherent (workspace : Workspace) : Prop :=
  ∀ key ty, workspace.cache.entries[cacheKey workspace.context key]? = some ty →
    (workspace.declRun key).2.limitMet = false →
    Ty.eqv ty (workspace.declRun key).1 = true

/-- What inferring a kept type with an empty cache records has been recorded. -/
def Recorded (workspace : Workspace) : Prop :=
  ∀ key ty, workspace.cache.entries[cacheKey workspace.context key]? = some ty →
    (workspace.declRun key).2.cache.Grows workspace.cache

/-- The names to which the old or the new version of the edited file contributes. -/
def changedNames (workspace : Workspace) : Edit → List String
  | .set file tree => dedupSorted (sortNames (workspace.index.contributedNames file
      ++ (workspace.index.setFile file tree).2.contributedNames file))
  | .remove file => workspace.index.contributedNames file

/-- The files whose kept types an edit drops. -/
def affected (workspace : Workspace) (edit : Edit) : Std.HashSet FileId :=
  workspace.cache.affectedBy edit.file (workspace.changedNames edit)

/-- A type of the file is kept, or one that was read from it, and the edit does not drop it. -/
def Retains (workspace : Workspace) (edit : Edit) (file : FileId) : Prop :=
  file ∉ workspace.affected edit ∧
    ((∃ key : CacheKey, key.decl.file = file ∧ (workspace.cache.entries[key]?).isSome) ∨
      ∃ other, workspace.cache.DependsOn other file)

/-! ## What an edit changes -/

theorem Reachable.valid {workspace : Workspace} (reachable : workspace.Reachable) :
    workspace.index.Valid := by
  induction reachable with
  | start options => exact Index.valid_empty
  | @edit workspace _ edit valid =>
    cases edit with
    | set file tree => exact valid.setFile file tree
    | remove file =>
      rw [afterEdit, removeFile]
      have removed := valid.removeFile file
      split
      · rename_i found
        rwa [found] at removed
      · exact valid
  | query _ query valid => cases query <;> exact valid.snapshot
  | snapshot _ valid => exact valid.snapshot
  | clearCache _ valid => exact valid

section Edited

variable {workspace : Workspace} (valid : workspace.index.Valid) (edit : Edit)
include valid

/-- An edit replaces one file and drops the types of the affected files, or does nothing at all. -/
theorem afterEdit_cases :
    workspace.afterEdit edit = workspace ∨
    (workspace.afterEdit edit).index.Valid ∧
      (workspace.afterEdit edit).options = workspace.options ∧
      (workspace.afterEdit edit).cache
        = (workspace.cache.invalidate edit.file (workspace.changedNames edit)).2 ∧
      DifferIn edit.file (workspace.changedNames edit) workspace.index.files
        (workspace.afterEdit edit).index.files := by
  cases edit with
  | set file tree =>
    refine .inr ⟨valid.setFile file tree, rfl, rfl, (valid.differIn_setFile file tree).mono ?_⟩
    exact fun name mem => mem_dedupSorted.mpr (mem_sortNames.mpr mem)
  | remove file =>
    have removed := valid.removeFile file
    have differ := valid.differIn_removeFile file
    rw [afterEdit, removeFile]
    split
    · rename_i index found
      rw [found] at removed differ
      exact .inr ⟨removed, rfl, rfl, differ⟩
    · exact .inl rfl

end Edited

theorem snapshot_eq {workspace : Workspace} (valid : workspace.index.Valid) :
    workspace.context.snapshot = .ofFiles workspace.index.files := valid.snapshot_eq

section Found

variable {workspace : Workspace} (reachable : workspace.Reachable) {file : FileId}
  {indexed : IndexedFile} (found : workspace.index.file? file = some indexed)
include reachable found

theorem file?_context : workspace.context.snapshot.file? file = some indexed := by
  rw [snapshot_eq reachable.valid]
  exact (Snapshot.file?_ofFiles reachable.valid.distinct file).trans found

theorem decls?_context : workspace.context.snapshot.decls? file = some indexed.decls :=
  Snapshot.decls?_of_file? (file?_context reachable found)

end Found

end Workspace

/-- Two projects that differ in one file agree on the other files and on the unchanged names. -/
theorem DifferIn.agree {edited : FileId} {names : List String} {before after : List IndexedFile}
    (differ : DifferIn edited names before after) {files : FileId → Prop}
    (others : ∀ file, files file → file ≠ edited)
    (silent : Snapshot.AgreeSilently files (.ofFiles before) (.ofFiles after)) :
    Snapshot.Agree files (· ∉ names) (.ofFiles before) (.ofFiles after) where
  toAgreeSilently := silent
  file? file mem := differ.file?_eq (others file mem)
  isClass name unchanged := by
    rw [Snapshot.isClass_ofFiles, Snapshot.isClass_ofFiles, Snapshot.classDecls_ofFiles,
      Snapshot.classDecls_ofFiles,
      differ.flatMap_eq (Entry.contributing_nameIf (.inl rfl)) unchanged]
  aliasDecls name unchanged := by
    rw [Snapshot.aliasDecls_ofFiles, Snapshot.aliasDecls_ofFiles,
      differ.flatMap_eq (Entry.contributing_nameIf (.inr (.inl rfl))) unchanged]
  globalDecls name := differ.globalDecls_eq
  classMembers name := differ.classMembers_eq
  globalMembers name := differ.globalMembers_eq
  aliasEntry name key unchanged mem := by
    rw [Snapshot.aliasDecls_ofFiles] at mem
    exact differ.entry?_listed (Entry.contributing_nameIf (.inr (.inl rfl))) unchanged mem
  classMemberEntry name key unchanged := differ.classMemberEntry unchanged
  globalMemberEntry name key unchanged := differ.globalMemberEntry unchanged
  tableMemberEntry table key mem found := by
    refine differ.entry?_eq ?_
    rw [Snapshot.tableMembers, Snapshot.file?_ofFiles differ.distinctBefore] at found
    split at found
    · rename_i indexed hit
      obtain ⟨decl, -, rfl⟩ := List.mem_map.mp found
      have same : indexed.file = table.file := by simpa using List.find?_some hit
      exact same ▸ others table.file mem
    · cases found
  globalsBefore name key entry mem found := by
    rw [Snapshot.kind_of_mem_globalDecls differ.distinctBefore mem found]
    rfl
  globalsAfter name key entry mem found := by
    rw [Snapshot.kind_of_mem_globalDecls differ.distinctAfter mem found]
    rfl

namespace Workspace

/-- The retained files depend on nothing that the edit changes. -/
theorem covered_retained (workspace : Workspace) (edit : Edit) :
    workspace.cache.Covered (workspace.Retains edit) (· ∉ workspace.changedNames edit) where
  dependsOn _ _ retained dep :=
    ⟨fun hit => retained.1 ((Cache.closed_affectedBy _ _ _).dependent _ _ dep hit), .inr ⟨_, dep⟩⟩
  reads _ _ retained read hit := retained.1 ((Cache.closed_affectedBy _ _ _).reader _ _ hit read)

/-- An edit leaves the cache coherent, if what inferring the kept types reads was recorded and the
edit leaves alone what is read without being recorded. -/
theorem coherent_afterEdit {workspace : Workspace} (reachable : workspace.Reachable) (edit : Edit)
    (recorded : workspace.Recorded)
    (silent : Snapshot.AgreeSilently (workspace.Retains edit) workspace.context.snapshot
      (workspace.afterEdit edit).context.snapshot)
    (coherent : workspace.Coherent) : (workspace.afterEdit edit).Coherent := by
  have valid := reachable.valid
  rcases afterEdit_cases valid edit with same | ⟨valid', options, cache, differ⟩
  · rw [same]
    exact coherent
  -- a type that is still found was found before, under the same key, because its file is retained;
  -- and inferring it reads only what was recorded, on which the two versions agree
  · intro key ty found
    have context_eq : (workspace.afterEdit edit).context
        = workspace.context.anew (workspace.afterEdit edit).context.snapshot := by
      rw [context, options]
      rfl
    rw [snapshot_eq valid, snapshot_eq valid'] at silent
    have agree := differ.agree
      (fun file retained same => retained.1 (same ▸ (Cache.closed_affectedBy _ _ _).changed)) silent
    rw [← snapshot_eq valid, ← snapshot_eq valid'] at agree
    rw [cache] at found
    obtain ⟨found, unaffected⟩ := Cache.of_invalidate_entry found
    have retained : workspace.Retains edit key.file :=
      ⟨unaffected, .inl ⟨_, rfl, by rw [found]; rfl⟩⟩
    rw [context_eq, cacheKey_anew agree retained] at found
    have covered := (workspace.covered_retained edit).of_grows (recorded key ty found)
    have same_run : (workspace.afterEdit edit).declRun key = workspace.declRun key := by
      rw [declRun, context_eq, options]
      exact sameAt_declType agree retained _ covered
    rw [same_run]
    exact coherent key ty found

/-! ## A loop over a table -/

/-- A loop over nothing: `for i in ipairs(nil) do end`. -/
def loopTree : Tree where
  nodes := #[
    ⟨.name "ipairs", ⟨0, 1⟩, some 2⟩, ⟨.nil, ⟨2, 3⟩, some 2⟩,
    ⟨.call (some 0) none [some 1], ⟨0, 5⟩, some 5⟩, ⟨.block [], ⟨6, 7⟩, some 5⟩,
    ⟨.name "i", ⟨8, 9⟩, some 5⟩, ⟨.genericFor [some 4] [some 2] (some 3), ⟨0, 11⟩, some 6⟩,
    ⟨.block [some 5], ⟨0, 13⟩, some 7⟩, ⟨.chunk (some 6), ⟨0, 15⟩, none⟩]
  docs := ∅
  root := some 7

/-- A global without a value: `name = nil`. -/
def globalTree (name : String) : Tree where
  nodes := #[
    ⟨.name name, ⟨0, 1⟩, some 2⟩, ⟨.nil, ⟨2, 3⟩, some 2⟩,
    ⟨.assign [some 0] [some 1], ⟨0, 5⟩, some 3⟩, ⟨.block [some 2], ⟨0, 7⟩, some 4⟩,
    ⟨.chunk (some 3), ⟨0, 9⟩, none⟩]
  docs := ∅
  root := some 4

/-- The project with the loop in its one file. -/
def loop : Workspace := fresh (Index.empty.setFile ⟨1⟩ loopTree).2 .standard

/-- The same project after its variable was asked for. -/
def loopAsked : Workspace := loop.afterQuery (.inferType ⟨1⟩ (some 4) false)

namespace Loop

def indexed : IndexedFile := ⟨⟨1⟩, 1, loopTree, .ofTree ⟨1⟩ loopTree⟩

/-- The other file after the edit. -/
def added (name : String) : IndexedFile := ⟨⟨2⟩, 2, globalTree name, .ofTree ⟨2⟩ (globalTree name)⟩

/-- The variable of the loop, and what the walk records of it. -/
def key : DeclKey := ⟨⟨1⟩, 0⟩

def entry : Entry :=
  { Entry.plain 0 .localVar "i" (some 1) (some 4) ⟨8, 9⟩ with
    initializer := some ⟨some 2, 0, .iterator⟩
    visibleFrom := 6 }

/-- The global, and what the walk records of it. -/
def globalKey : DeclKey := ⟨⟨2⟩, 0⟩

def globalEntry (name : String) : Entry :=
  { Entry.plain 0 .global name (some 0) (some 0) ⟨0, 1⟩ with
    initializer := some ⟨some 1, 0, .literal⟩
    visibleFrom := 5 }

theorem collect_loop : Collect.run loopTree
    = { table := ⟨#[entry],
          #[⟨.file, none, ⟨0, 15⟩, #[], #[1], none⟩, ⟨.loop, some 0, ⟨0, 11⟩, #[0], #[], none⟩]⟩
        tables := DeclTables.empty.insert entry
        functions := ∅, scope := none, closures := [] } := by
  have doc (node : Nat) : loopTree.doc? (some node) = none := Std.HashMap.getElem?_empty
  have root : loopTree.form? loopTree.root = some (.chunk (some 6)) := rfl
  have block : loopTree.form? (some 6) = some (.block [some 5]) := rfl
  have depth : Collect.depthBound loopTree = 30 := rfl
  simp only [Collect.run, root, depth, Collect.visitWithin, Collect.visitStep, block,
    List.forM_eq_forM, List.forM_cons, List.forM_nil, doc]
  rfl

theorem collect_global (name : String) : (Collect.run (globalTree name)).table.entries
    = #[globalEntry name] := by
  have doc (node : Nat) : (globalTree name).doc? (some node) = none := Std.HashMap.getElem?_empty
  have root : (globalTree name).form? (globalTree name).root = some (.chunk (some 3)) := rfl
  have block : (globalTree name).form? (some 3) = some (.block [some 2]) := rfl
  have depth : Collect.depthBound (globalTree name) = 21 := rfl
  simp only [Collect.run, root, depth, Collect.visitWithin, Collect.visitStep, block,
    List.forM_eq_forM, List.forM_cons, List.forM_nil, doc]
  rfl

theorem listed_indexed (key? : Entry → Option String) (name : String) :
    indexed.listed key? name = if key? entry = some name then [key] else [] := by
  have entries : indexed.decls.table.entries = #[entry] :=
    congrArg (fun found => found.table.entries) collect_loop
  rw [IndexedFile.listed_eq, entries]
  by_cases h : key? entry = some name <;> simp [h, indexed, key]

theorem listed_added (key? : Entry → Option String) (global name : String) :
    (added global).listed key? name
      = if key? (globalEntry global) = some name then [globalKey] else [] := by
  have entries : (added global).decls.table.entries = #[globalEntry global] := collect_global global
  rw [IndexedFile.listed_eq, entries]
  by_cases h : key? (globalEntry global) = some name <;> simp [h, added, globalKey]

/-- No function is recorded in the file of the loop, so none of its scopes is inside a method. -/
theorem methodOwner?_eq (scope : Option Nat) :
    Snapshot.methodOwner? indexed.decls scope = none := by
  have none_recorded (node : NodeRef) : indexed.decls.function? node = none := by
    have functions : indexed.decls.functions = ∅ := congrArg Collector.functions collect_loop
    rw [FileDecls.function?, functions]
    cases node <;> simp
  have within (steps : Nat) : Snapshot.methodOwnerWithin indexed.decls steps scope = none := by
    induction steps generalizing scope with
    | zero => rfl
    | succ steps ih =>
      rw [Snapshot.methodOwnerWithin]
      split
      · rfl
      · simp only [none_recorded, Option.bind_none, ite_self]
        exact ih _
  exact within _

section Project

variable {snapshot : Snapshot} (found : snapshot.file? ⟨1⟩ = some indexed)
include found

theorem entry?_eq : snapshot.entry? key = some entry := by
  refine (Snapshot.entry?_of_file? found 0).trans ?_
  show (Collect.run loopTree).table.entries[0]? = _
  rw [collect_loop]
  rfl

theorem form?_eq (node : NodeRef) : snapshot.form? ⟨1⟩ node = loopTree.form? node :=
  Snapshot.form?_of_file? found node

/-- The name that iterates is bound in no scope of the file. -/
theorem resolveName_eq :
    snapshot.resolveName ⟨1⟩ "ipairs" (snapshot.startOf ⟨1⟩ (some 0))
      = (snapshot.globalDecls "ipairs").take Limits.candidates := by
  have start : snapshot.startOf ⟨1⟩ (some 0) = 0 := Snapshot.startOf_of_file? found (some 0)
  have unbound : indexed.decls.table.lookup "ipairs" 0 (indexed.decls.table.scopeAt 0) = none := by
    show (Collect.run loopTree).table.lookup "ipairs" 0
      ((Collect.run loopTree).table.scopeAt 0) = none
    rw [collect_loop]
    rfl
  rw [start, Snapshot.resolveName, Snapshot.decls?_of_file? found]
  simp only [unbound, methodOwner?_eq]
  rfl

theorem tableIteration?_eq : Rule.tableIteration? snapshot ⟨1⟩ (some 2)
    = if (snapshot.globalDecls "ipairs").isEmpty then some (.indexed, [some 1]) else none := by
  have call : loopTree.form? (some 2) = some (.call (some 0) none [some 1]) := rfl
  have callee : loopTree.form? (some 0) = some (.name "ipairs") := rfl
  have iterates : Rule.TableIteration.ofName? "ipairs" = some .indexed := rfl
  simp only [Rule.tableIteration?, form?_eq found, call, callee, iterates, resolveName_eq found]
  cases snapshot.globalDecls "ipairs" <;> rfl

end Project

theorem exprType_nil {ctx : Context} (found : ctx.snapshot.file? ⟨1⟩ = some indexed) :
    Rule.exprType ctx ⟨1⟩ (some 1) none = .done .nil := by
  rw [Rule.exprType, form?_eq found]
  rfl

theorem file?_loop : loop.context.snapshot.file? ⟨1⟩ = some indexed :=
  Snapshot.file?_singleton indexed

theorem globalDecls_loop (name : String) : loop.context.snapshot.globalDecls name = [] := by
  show (Snapshot.ofFiles [indexed]).globalDecls name = []
  rw [Snapshot.globalDecls_ofFiles]
  simp [listed_indexed, entry, Entry.plain, Entry.nameIf]

theorem declType_loop : Rule.declType loop.context key
    = Plan.ask (.expr ⟨1⟩ (some 1) none) fun _ => .done .number := by
  have iteration : Rule.tableIteration? loop.context.snapshot ⟨1⟩ (some 2)
      = some (.indexed, [some 1]) := by
    rw [tableIteration?_eq file?_loop, globalDecls_loop]
    rfl
  simp only [Rule.declType, entry?_eq file?_loop]
  show (do Rule.withOverloads entry (← Rule.iteratorType loop.context ⟨1⟩ (some 2) 0)) = _
  rw [Rule.iteratorType, iteration]
  rfl

/-- The state after the variable was inferred. -/
def final : State :=
  { State.start .standard .empty with
    guard := (((State.start .standard .empty).guard.counted.pushed (.decl key)).leave (.decl key)).2
    cache := { Cache.empty with
      entries := (∅ : Std.HashMap CacheKey Ty).insert (cacheKey loop.context key) .number
      misses := 1 } }

theorem declRun_loop : loop.declRun key = (.number, final) := by
  have unkept : (∅ : Std.HashMap CacheKey Ty)[cacheKey loop.context key]? = none :=
    Std.HashMap.getElem?_empty
  have inferred (s : State) (depth : s.depth = (State.start .standard .empty).depth) :
      exec ((Rule.declType loop.context key).run (solveWithin loop.context 1000)) s
        = (.number, s) := by
    rw [declType_loop, exec_run_ask, exec_run_done]
    refine Prod.ext rfl ?_
    have known : (Task.expr ⟨1⟩ (some 1) none).known? loop.context s = none := rfl
    rcases perform_nested loop.context (solveWithin loop.context 999) known rfl with
      ⟨full, -⟩ | ⟨-, inside, -, rfl, r, rfl, hrun⟩
    · rw [depth] at full
      exact absurd full (by decide)
    · refine (congrArg Prod.snd hrun).trans ?_
      simp only [Task.rule, exprType_nil file?_loop]
      rfl
  have asked : exec (perform loop.context (solveWithin loop.context 1000) (.decl key))
      (State.start .standard .empty) = _ :=
    exec_performDecl_first rfl rfl unkept (by decide) rfl (inferred _ rfl)
  refine asked.trans ((close_decl rfl ?_ ?_ ?_).trans rfl)
  · decide
  · rfl
  · exact unkept

theorem declForNode?_eq : (loop.context.snapshot.decls? ⟨1⟩).bind
    (fun decls => decls.declForNode? (some 4)) = some 0 := by
  rw [Snapshot.decls?_of_file? file?_loop, Option.bind_some, indexed,
    FileDecls.declForNode?_ofTree, collect_loop]
  rfl

/-- Asking for the variable infers its declaration and looks up nothing more. -/
theorem cache_asked : loopAsked.cache = final.cache := by
  have rule : Rule.nodeType loop.context ⟨1⟩ (some 4)
      = Plan.ask (.decl key) fun ty => .ask (.resolve ty) fun ty => .done ty.eraseRefs := by
    simp only [Rule.nodeType, declForNode?_eq]
    rfl
  have asked : exec (solve loop.context (.decl key)) (State.start .standard .empty)
      = (.number, final) := declRun_loop
  show (exec (nodeType loop.context ⟨1⟩ (some 4)) (State.start .standard .empty)).2.cache = _
  rw [nodeType, rule, exec_run_ask, asked]
  rfl

theorem context_asked : loopAsked.context = loop.context := context_query loop _ _

theorem declRun_asked : loopAsked.declRun key = (.number, final) := by
  rw [declRun, context_asked]
  exact declRun_loop

theorem reachable_asked : loopAsked.Reachable :=
  .query (.clearCache (.edit (.start .standard) (.set ⟨1⟩ loopTree))) _

/-- Only the type of the variable is kept. -/
theorem kept_asked {other : DeclKey} {ty : Ty}
    (kept : loopAsked.cache.entries[cacheKey loopAsked.context other]? = some ty) :
    other = key ∧ ty = .number := by
  rw [cache_asked, context_asked] at kept
  by_cases same : key = other
  · subst same
    exact ⟨rfl, (Option.some.inj (Std.HashMap.getElem?_insert_self.symm.trans kept)).symm⟩
  · have missing : final.cache.entries[cacheKey loop.context other]? = none :=
      unkept_insert same Std.HashMap.getElem?_empty .number
    rw [missing] at kept
    cases kept

theorem coherent_asked : loopAsked.Coherent := by
  intro other ty kept _
  obtain ⟨rfl, rfl⟩ := kept_asked kept
  rw [declRun_asked]
  rfl

theorem recorded_asked : loopAsked.Recorded := by
  intro other ty kept
  obtain ⟨rfl, rfl⟩ := kept_asked kept
  rw [declRun_asked, cache_asked]
  exact .refl _

/-! ### The name that iterates is declared -/

/-- The context of the queries once the name is declared. -/
def declared : Context := .make (.ofFiles [indexed, added "ipairs"]) .standard .empty false

theorem running : declared.cancelled = false := rfl

theorem file?_declared :
    declared.snapshot.file? ⟨1⟩ = some indexed ∧
      declared.snapshot.file? ⟨2⟩ = some (added "ipairs") := by
  have distinct : [indexed, added "ipairs"].Pairwise fun a b => a.file ≠ b.file := by
    simp [indexed, added]
  exact ⟨Snapshot.file?_ofFiles distinct ⟨1⟩, Snapshot.file?_ofFiles distinct ⟨2⟩⟩

theorem globalDecls_declared : declared.snapshot.globalDecls "ipairs" = [globalKey] := by
  show (Snapshot.ofFiles [indexed, added "ipairs"]).globalDecls _ = _
  rw [Snapshot.globalDecls_ofFiles]
  simp [listed_indexed, listed_added, entry, globalEntry, Entry.plain, Entry.nameIf]

theorem declType_declared : ∃ next, Rule.declType declared key
    = Plan.ask (.expr ⟨1⟩ (some 2) none) next ∧ next .unknown = .done .unknown := by
  have iteration : Rule.tableIteration? declared.snapshot ⟨1⟩ (some 2) = none := by
    rw [tableIteration?_eq file?_declared.1, globalDecls_declared]
    rfl
  simp only [Rule.declType, entry?_eq file?_declared.1]
  show ∃ next, (do Rule.withOverloads entry (← Rule.iteratorType declared ⟨1⟩ (some 2) 0)) = _ ∧ _
  rw [Rule.iteratorType, iteration]
  exact ⟨_, rfl, rfl⟩

theorem exprType_call : ∃ next, Rule.exprType declared ⟨1⟩ (some 2) none
    = Plan.ask (.expr ⟨1⟩ (some 0) none) next ∧ next .nil = .done .unknown := by
  have form (node : NodeRef) : declared.snapshot.form? ⟨1⟩ node = loopTree.form? node :=
    form?_eq file?_declared.1 node
  have call : loopTree.form? (some 2) = some (.call (some 0) none [some 1]) := rfl
  have callee : loopTree.form? (some 0) = some (.name "ipairs") := rfl
  simp only [Rule.exprType, form, call, Rule.formType, Rule.callType, Rule.calleeOf, callee]
  exact ⟨_, rfl, rfl⟩

theorem exprType_name : ∃ next, Rule.exprType declared ⟨1⟩ (some 0) none
    = Plan.note "ipairs" (.ask (.decl globalKey) next) ∧ next .nil = .done .nil := by
  have form : declared.snapshot.form? ⟨1⟩ (some 0) = some (.name "ipairs") :=
    form?_eq file?_declared.1 _
  have candidates : declared.snapshot.resolveName ⟨1⟩ "ipairs"
      (declared.snapshot.startOf ⟨1⟩ (some 0)) = [globalKey] := by
    rw [resolveName_eq file?_declared.1, globalDecls_declared]
    rfl
  simp only [Rule.exprType, form, Rule.formType, Rule.nameType, candidates]
  exact ⟨_, rfl, rfl⟩

theorem declType_global : ∃ next, Rule.declType declared globalKey
    = Plan.ask (.expr ⟨2⟩ (some 1) none) next ∧ next .nil = .done .nil := by
  have found : declared.snapshot.entry? globalKey = some (globalEntry "ipairs") := by
    refine (Snapshot.entry?_of_file? file?_declared.2 0).trans ?_
    show (Collect.run (globalTree "ipairs")).table.entries[0]? = _
    rw [collect_global]
    rfl
  simp only [Rule.declType, found]
  exact ⟨_, rfl, rfl⟩

theorem exprType_value : Rule.exprType declared ⟨2⟩ (some 1) none = .done .nil := by
  have form : declared.snapshot.form? ⟨2⟩ (some 1) = some .nil :=
    Snapshot.form?_of_file? file?_declared.2 (some 1)
  rw [Rule.exprType, form]
  rfl

/-- The guard inside the variable. -/
def inside : Guard GuardKey :=
  (State.start .standard .empty).guard.counted.pushed (.decl key)

/-- The guard after the global was inferred there. -/
def after : Guard GuardKey :=
  ((inside.counted.pushed (.decl globalKey)).leave (.decl globalKey)).2

/-- The global is `nil`. -/
theorem leads_global (levels : Nat) {depth : DepthCounter} (room : depth.depth < depth.maxDepth)
    (fine : depth.exceeded = false) :
    Leads (solveWithin declared (levels + 2) (.decl globalKey)) inside depth ∅ .nil after
      ((∅ : Std.HashMap CacheKey Ty).insert (cacheKey declared globalKey) .nil) := by
  have unkept : (∅ : Std.HashMap CacheKey Ty)[cacheKey declared globalKey]? = none :=
    Std.HashMap.getElem?_empty
  obtain ⟨next, rule, done⟩ := declType_global
  refine leads_decl running unkept (by decide) (by decide) ?_ unkept (by decide) fine
    (by decide) rfl
  rw [rule]
  refine leads_ask (leads_expr running room ?_) (done ▸ leads_done)
  rw [exprType_value]
  exact leads_done

/-- What is called is the global, and `nil` cannot be called. -/
theorem leads_call (levels : Nat) {depth : DepthCounter} (room : depth.depth + 2 < depth.maxDepth)
    (fine : depth.exceeded = false) :
    Leads (solveWithin declared (levels + 4) (.expr ⟨1⟩ (some 2) none)) inside depth ∅ .unknown
      after ((∅ : Std.HashMap CacheKey Ty).insert (cacheKey declared globalKey) .nil) := by
  obtain ⟨next, call, unknown⟩ := exprType_call
  obtain ⟨next', name, nil⟩ := exprType_name
  refine leads_expr running (by omega) ?_
  rw [call]
  refine leads_ask (leads_expr running (Nat.lt_of_succ_lt room) ?_)
    (unknown ▸ leads_done)
  rw [name]
  exact leads_note (leads_ask (leads_global levels room fine) (nil ▸ leads_done))

/-- With the name declared, the variable is not known to be a number. -/
theorem leads_declared :
    ∃ guard entries, guard.exceeded = false ∧
      Leads (perform declared (solveWithin declared 1000) (.decl key))
        (State.start .standard .empty).guard (State.start .standard .empty).depth ∅ .unknown guard
        entries := by
  have unkept : (∅ : Std.HashMap CacheKey Ty)[cacheKey declared key]? = none :=
    Std.HashMap.getElem?_empty
  have unkept' : ((∅ : Std.HashMap CacheKey Ty).insert (cacheKey declared globalKey)
      .nil)[cacheKey declared key]? = none := unkept_insert (by decide) unkept .nil
  obtain ⟨next, rule, unknown⟩ := declType_declared
  have inferred : Leads ((Rule.declType declared key).run (solveWithin declared 1000)) inside
      (State.start .standard .empty).depth ∅ .unknown after
      ((∅ : Std.HashMap CacheKey Ty).insert (cacheKey declared globalKey) .nil) := by
    rw [rule]
    exact leads_ask (leads_call 996 (by decide) rfl) (unknown ▸ leads_done)
  refine ⟨_, _, ?_, leads_decl running unkept (by decide) rfl inferred unkept' (by decide) rfl
    (by decide) rfl⟩
  decide

/-- The project after the edit. -/
theorem context_edited (name : String) :
    (loopAsked.afterEdit (.set ⟨2⟩ (globalTree name))).context
      = .make (.ofFiles [indexed, added name]) .standard .empty false := by
  have valid := (reachable_asked.edit (.set ⟨2⟩ (globalTree name))).valid
  rw [context, show (loopAsked.afterEdit (.set ⟨2⟩ (globalTree name))).snapshot.1 = _ from
    valid.snapshot_eq]
  rfl

end Loop

open Loop in
/-- The variable of the loop keeps its type when the name that iterates is declared in another
file, though it is not inferred so any more. -/
theorem not_coherent_afterEdit_loop :
    loopAsked.Reachable ∧ loopAsked.Coherent ∧
      ¬ (loopAsked.afterEdit (.set ⟨2⟩ (globalTree "ipairs"))).Coherent := by
  refine ⟨reachable_asked, coherent_asked, fun coherent => ?_⟩
  have context : (loopAsked.afterEdit (.set ⟨2⟩ (globalTree "ipairs"))).context = declared :=
    context_edited "ipairs"
  obtain ⟨guard, entries, fine, leads⟩ := leads_declared
  obtain ⟨last, hrun, reached⟩ := leads _ (.start .standard .empty)
  have declRun : (loopAsked.afterEdit (.set ⟨2⟩ (globalTree "ipairs"))).declRun key
      = (.unknown, last) := by
    rw [Workspace.declRun, context]
    exact hrun
  have kept : (loopAsked.afterEdit (.set ⟨2⟩ (globalTree "ipairs"))).cache.entries[
      cacheKey declared key]? = some .number := by
    have same : cacheKey declared key = cacheKey loop.context key := by
      simp only [cacheKey, Snapshot.generation, key, file?_declared.1, file?_loop]
      rfl
    show (loopAsked.cache.invalidate ⟨2⟩ _).2.entries[_]? = _
    have entries : final.cache.entries
        = (∅ : Std.HashMap CacheKey Ty).insert (cacheKey loop.context key) .number := rfl
    simp only [Cache.invalidate, Std.HashMap.getElem?_filter', cache_asked, same]
    rw [entries, Std.HashMap.getElem?_insert_self, Option.filter_some, if_pos]
    rw [Bool.not_eq_true', ← Bool.not_eq_true, Std.HashSet.contains_iff_mem]
    intro affected
    cases Cache.eq_of_mem_affectedBy rfl rfl affected
  have stale := coherent key .number (context ▸ kept)
    (by rw [declRun]; exact reached.unlimited fine rfl)
  rw [declRun] at stale
  cases stale

open Loop in
/-- Declaring any other name leaves the variable of the loop as it is inferred. -/
theorem coherent_afterEdit_loop :
    (loopAsked.afterEdit (.set ⟨2⟩ (globalTree "count"))).Coherent := by
  refine coherent_afterEdit reachable_asked _ recorded_asked ?_ coherent_asked
  have before : loopAsked.context.snapshot = .ofFiles [indexed] :=
    congrArg Context.snapshot context_asked
  rw [before, context_edited]
  constructor
  · intro name
    simp [Context.make, Snapshot.supertypes, Snapshot.classDecls_ofFiles, listed_indexed,
      listed_added, entry, globalEntry, Entry.plain, Entry.nameIf]
  · intro file decls scope owner name _ found owned
    rw [Snapshot.decls?, Snapshot.file?_ofFiles (List.pairwise_singleton _ indexed)] at found
    obtain ⟨file, hit, rfl⟩ := Option.map_eq_some_iff.mp found
    cases List.mem_singleton.mp (List.mem_of_find?_eq_some hit)
    rw [methodOwner?_eq] at owned
    cases owned
  · intro name iterates
    have other : "count" ≠ name := by
      rintro rfl
      cases iterates
    simp [Context.make, Snapshot.globalDecls_ofFiles, listed_indexed, listed_added, entry,
      globalEntry, Entry.plain, Entry.nameIf, other]

end Workspace

end LuaTyping
