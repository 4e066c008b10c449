import LuaTyping.Proofs.Decl.Origins
import LuaTyping.Proofs.Infer.Forwarding
import LuaTyping.Proofs.Workspace.ClassReferences
import LuaTyping.Proofs.Workspace.Isolation

/-!
# Copies of variables

Where a statement `local y = x` says nothing about the type of `y`, the variable takes its type from
the name `x`. It takes the first value of it: a type that lists several values is both the type of
an array of fixed length and what a call with several results has, and of the latter only the first
result goes to the variable. So `y` has the type of `x` unless that is such a list, and of a list it
has the first element (`inferType_eq_nthValue`).

The last part has the smallest program in which the two differ: `x` is documented as a pair.
-/

set_option autoImplicit false

namespace LuaTyping

open Infer

namespace Workspace

theorem Reachable.resolved {workspace : Workspace} (reachable : workspace.Reachable) :
    workspace.cache.Resolved := by
  induction reachable with
  | start options => exact resolved_fresh .empty options
  | @edit workspace h edit ih =>
    rcases afterEdit_cases h.valid edit with same | ⟨-, -, cache, -⟩
    · rwa [same]
    · rw [cache]
      exact fun key ty found => ih key ty (Cache.of_invalidate_entry found).1
  | query _ query ih => exact resolved_afterQueries ih [query]
  | snapshot _ ih => exact ih
  | clearCache _ _ => exact resolved_fresh .empty .standard

/-- Inferring the declaration does not lead back to it. Where it is not kept, that is so if
inferring it now does not come back to it. A kept type is of an earlier query, while that of a
reference is put together anew from what is kept of all that the name leads to, and the two need not
agree where any of this runs in a circle; so nothing that the declaration depends on may do so. -/
def Straight (workspace : Workspace) (key : DeclKey) : Prop :=
  workspace.cache.entries[cacheKey workspace.context key]? = none ∧
      ¬ ComesBack workspace.context workspace.cache key ∨
    workspace.Sound ∧ ∃ ty, (Rule.ask (.decl key)).Determines workspace.context ty

section Copies

variable {workspace : Workspace} (reachable : workspace.Reachable) {file : FileId}
  {indexed : IndexedFile} (found : workspace.index.file? file = some indexed)
  {stmt target source d : Nat} {name : String}
  (copies : indexed.tree.Copies stmt target source name)
  (declared : indexed.decls.declForNode? (some target) = some d)
include reachable found

theorem exec_nodeType_target (declared : indexed.decls.declForNode? (some target) = some d) :
    exec (nodeType workspace.context file (some target)) workspace.startState
      = exec (solve workspace.context (.decl ⟨file, d⟩)) workspace.startState := by
  have goal : nodeGoal workspace.context file (some target) = .decl ⟨file, d⟩ := by
    rw [nodeGoal, decls?_context reachable found, Option.bind_some, declared]
  rw [← goal]
  exact exec_nodeType_eq rfl Bindings.resolved_empty _ _ (.start _ reachable.resolved)

include copies

theorem exec_nodeType_source :
    exec (nodeType workspace.context file (some source)) workspace.startState
      = exec (solve workspace.context (.expr file (some source) none)) workspace.startState := by
  have collected := reachable.collected indexed (List.mem_of_find?_eq_some found)
  have goal : nodeGoal workspace.context file (some source) = .expr file (some source) none := by
    rw [nodeGoal, decls?_context reachable found, Option.bind_some, collected,
      FileDecls.declForNode?_source copies]
  rw [← goal]
  exact exec_nodeType_eq rfl Bindings.resolved_empty _ _ (.start _ reachable.resolved)

include declared

/-- The variable takes the first value of the name. -/
theorem declType_of_copies : Rule.declType workspace.context ⟨file, d⟩
    = Plan.ask (.expr file (some source) none) fun ty => .done (ty.nthValue 0) := by
  have collected := reachable.collected indexed (List.mem_of_find?_eq_some found)
  rw [collected] at declared
  obtain ⟨entry, is_entry, kind, no_type, no_overloads, initializer⟩ :=
    FileDecls.entry_of_copies copies declared
  rw [← collected] at is_entry
  have is_entry : workspace.context.snapshot.entry? ⟨file, d⟩ = some entry := by
    rw [Snapshot.entry?, decls?_context reachable found]
    exact is_entry
  rw [Rule.declType, is_entry]
  simp only [kind, Rule.variableType, no_type, Rule.initializerType, initializer,
    Rule.withOverloads, no_overloads]
  rfl

/-- The variable has the first value of the name. -/
theorem inferType_eq_nthValue (straight : workspace.Straight ⟨file, d⟩)
    (unlimited : workspace.Unlimited fun ctx => nodeType ctx file (some target))
    (unlimited' : workspace.Unlimited fun ctx => nodeType ctx file (some source)) :
    (workspace.inferType file (some target) false).1
      = (workspace.inferType file (some source) false).1.nthValue 0 := by
  have rule := declType_of_copies reachable found copies declared
  show (exec (nodeType workspace.context file (some target)) workspace.startState).1
    = (exec (nodeType workspace.context file (some source)) workspace.startState).1.nthValue 0
  rw [Unlimited, exec_nodeType_target reachable found declared] at unlimited
  rw [Unlimited, exec_nodeType_source reachable found copies] at unlimited'
  rw [exec_nodeType_target reachable found declared,
    exec_nodeType_source reachable found copies]
  rcases straight with ⟨unkept, straight⟩ | ⟨sound, ty, determined⟩
  · exact solve_decl_of_ask rfl rule unkept unlimited straight
  · obtain ⟨value, determined', rfl⟩ := determines_decl_of_ask rule determined
    exact (Infer.Sound.solve_eq rfl sound determined unlimited).trans
      (congrArg (Ty.nthValue · 0) (Infer.Sound.solve_eq rfl sound determined' unlimited')).symm

/-- The variable has the type of the name, unless that lists several values. -/
theorem inferType_copy (straight : workspace.Straight ⟨file, d⟩)
    (unlimited : workspace.Unlimited fun ctx => nodeType ctx file (some target))
    (unlimited' : workspace.Unlimited fun ctx => nodeType ctx file (some source))
    (single : ∀ elements, (workspace.inferType file (some source) false).1 ≠ .tuple elements) :
    (workspace.inferType file (some target) false).1
      = (workspace.inferType file (some source) false).1 := by
  rw [inferType_eq_nthValue reachable found copies declared straight unlimited unlimited']
  generalize (workspace.inferType file (some source) false).1 = ty at single ⊢
  cases ty with
  | tuple elements => exact absurd rfl (single elements)
  | _ => rfl

end Copies

/-! ## A documented pair -/

namespace Pair

/-- What the comment says about `x`: that it is a pair, or a number. -/
def comment (pair : Bool) : TypeExpr :=
  if pair then .tuple [.name "number" [], .name "string" []] else .name "number" []

/-- The type that this is. -/
def ty (pair : Bool) : Ty := if pair then .tuple [.number, .string] else .number

/-- A documented `local x`, and `local y = x` after it. -/
def tree (pair : Bool) : Tree where
  nodes := #[
    ⟨.name "x", ⟨0, 1⟩, some 1⟩, ⟨.localVars [some 0] [], ⟨0, 3⟩, some 5⟩,
    ⟨.name "x", ⟨4, 5⟩, some 4⟩, ⟨.name "y", ⟨6, 7⟩, some 4⟩,
    ⟨.localVars [some 3] [some 2], ⟨4, 9⟩, some 5⟩,
    ⟨.block [some 1, some 4], ⟨0, 11⟩, some 6⟩, ⟨.chunk (some 5), ⟨0, 13⟩, none⟩]
  docs := .ofList [(1, ⟨[.typeTag (comment pair)]⟩)]
  root := some 6

/-- What the walk records of `x`. -/
def original (pair : Bool) : Entry :=
  { Entry.plain 0 .localVar "x" (some 0) (some 0) ⟨0, 1⟩ with
    declared := some (ty pair)
    visibleFrom := 3 }

/-- What the walk records of `y`. -/
def copy : Entry :=
  { Entry.plain 1 .localVar "y" (some 0) (some 3) ⟨6, 7⟩ with
    initializer := some ⟨some 2, 0, .name "x"⟩
    visibleFrom := 9 }

def originalKey : DeclKey := ⟨⟨1⟩, 0⟩

def copyKey : DeclKey := ⟨⟨1⟩, 1⟩

theorem doc?_eq (pair : Bool) {node : Nat} (other : node ≠ 1) :
    (tree pair).doc? (some node) = none :=
  Std.HashMap.getElem?_ofList_of_contains_eq_false (by simpa using other)

theorem table_eq (pair : Bool) : (Collect.run (tree pair)).table
    = ⟨#[original pair, copy], #[⟨.file, none, ⟨0, 13⟩, #[0, 1], #[], none⟩]⟩ := by
  have doc : (tree pair).doc? (some 1) = some ⟨[.typeTag (comment pair)]⟩ :=
    Std.HashMap.getElem?_ofList_of_mem (k := 1) rfl (by simp) (by simp)
  have root : (tree pair).form? (tree pair).root = some (.chunk (some 5)) := rfl
  have depth : Collect.depthBound (tree pair) = 27 := rfl
  have block : (tree pair).form? (some 5) = some (.block [some 1, some 4]) := rfl
  have uncommented : (tree pair).doc? (some 4) = none := doc?_eq pair (by decide)
  simp only [Collect.run, root, depth, Collect.visitWithin, Collect.visitStep, block,
    List.forM_eq_forM, List.forM_cons, List.forM_nil, doc, uncommented]
  cases pair <;> rfl

def indexed (pair : Bool) : IndexedFile := ⟨⟨1⟩, 1, tree pair, .ofTree ⟨1⟩ (tree pair)⟩

/-- A workspace with the program as its only file. -/
def workspace (pair : Bool) : Workspace := (ofOptions .standard).afterEdit (.set ⟨1⟩ (tree pair))

theorem reachable_workspace (pair : Bool) : (workspace pair).Reachable :=
  (Reachable.start .standard).edit _

theorem found (pair : Bool) : (workspace pair).index.file? ⟨1⟩ = some (indexed pair) := rfl

theorem copies (pair : Bool) : (indexed pair).tree.Copies 4 3 2 "x" := by
  have branching : (tree pair).Branching := Tree.branching_of_nodup (by cases pair <;> decide)
  exact branching.copies rfl rfl fun n mem => doc?_eq pair (by rintro rfl; simp at mem)

theorem declared (pair : Bool) : (indexed pair).decls.declForNode? (some 3) = some 1 := by
  rw [indexed, FileDecls.declForNode?_ofTree, table_eq]
  rfl

theorem entry?_eq (pair : Bool) :
    (workspace pair).context.snapshot.entry? originalKey = some (original pair) := by
  have table : (indexed pair).decls.table = _ := table_eq pair
  rw [originalKey, Snapshot.entry?_of_file? (file?_context (reachable_workspace pair) (found pair)),
    FileDecls.entry?, table]
  rfl

theorem resolveName_eq (pair : Bool) :
    (workspace pair).context.snapshot.resolveName ⟨1⟩ "x" 4 = [originalKey] := by
  have table : (indexed pair).decls.table = _ := table_eq pair
  rw [Snapshot.resolveName, decls?_context (reachable_workspace pair) (found pair)]
  dsimp only
  rw [table]
  rfl

section Runs

variable {pair : Bool} {levels : Nat} {guard : Guard GuardKey} {depth : DepthCounter}
  {entries : Std.HashMap CacheKey Ty}

/-- Looking up the documented type asks for nothing. -/
theorem leads_resolve : Leads (solveWithin (workspace pair).context (levels + 1)
    (.resolve (ty pair))) guard depth entries (ty pair) guard entries := by
  intro s h
  refine ⟨s, ?_, h⟩
  cases pair <;> rfl

/-- The type of `x` is the documented one, and it is kept. -/
theorem leads_original
    (unkept : entries[cacheKey (workspace pair).context originalKey]? = none)
    (room : ¬ guard.Spent) (inactive : guard.position? (.decl originalKey) = none)
    (guard_fine : guard.exceeded = false) (depth_fine : depth.exceeded = false) :
    Leads (solveWithin (workspace pair).context (levels + 2) (.decl originalKey)) guard depth
      entries (ty pair) guard.counted
      (entries.insert (cacheKey (workspace pair).context originalKey) (ty pair)) := by
  have rule : Rule.declType (workspace pair).context originalKey
      = Plan.ask (.resolve (ty pair)) fun found =>
          .done (Rule.withGenerics (original pair) found) := by
    rw [Rule.declType, entry?_eq]
    rfl
  have unchanged : Rule.withGenerics (original pair) (ty pair) = ty pair := by cases pair <;> rfl
  have bound : (ty pair).instantiate (workspace pair).context.bindings = ty pair := by
    cases pair <;> rfl
  exact leads_documented rfl rule leads_resolve unchanged bound unkept room inactive guard_fine
    depth_fine

theorem exprType_eq : Rule.exprType (workspace pair).context ⟨1⟩ (some 2) none
    = Plan.ask (.decl originalKey) fun found =>
        Rule.projectUnion (workspace pair).context [found] := by
  have file := file?_context (reachable_workspace pair) (found pair)
  have form : (workspace pair).context.snapshot.form? ⟨1⟩ (some 2) = some (.name "x") :=
    Snapshot.form?_of_file? file (some 2)
  have start : (workspace pair).context.snapshot.startOf ⟨1⟩ (some 2) = 4 :=
    Snapshot.startOf_of_file? file (some 2)
  have lexical : Rule.isLexical (workspace pair).context.snapshot ⟨1⟩ [originalKey] = true := by
    rw [Rule.isLexical, entry?_eq]
    rfl
  simp only [Rule.exprType, form, Rule.formType, Rule.nameType, start, resolveName_eq, lexical]
  rfl

/-- The type of the reference is that of `x`. -/
theorem leads_reference
    (unkept : entries[cacheKey (workspace pair).context originalKey]? = none)
    (room : ¬ guard.Spent) (inactive : guard.position? (.decl originalKey) = none)
    (guard_fine : guard.exceeded = false) (depth_fine : depth.exceeded = false)
    (below : depth.depth < depth.maxDepth) :
    Leads (solveWithin (workspace pair).context (levels + 3) (.expr ⟨1⟩ (some 2) none)) guard
      depth entries (ty pair) guard.counted
      (entries.insert (cacheKey (workspace pair).context originalKey) (ty pair)) := by
  have followed : Leads ((Rule.exprType (workspace pair).context ⟨1⟩ (some 2) none).run
      (solveWithin (workspace pair).context (levels + 2))) guard
      { depth with depth := depth.depth + 1 } entries (ty pair) guard.counted
      (entries.insert (cacheKey (workspace pair).context originalKey) (ty pair)) := by
    have single : Rule.projectUnion (workspace pair).context [ty pair] = .done (ty pair) := by
      cases pair <;> rfl
    rw [exprType_eq]
    refine leads_ask (leads_original unkept room inactive guard_fine depth_fine) ?_
    rw [single]
    exact leads_done
  have running : (workspace pair).context.cancelled = false := rfl
  exact leads_expr running below followed

end Runs

theorem unkept (pair : Bool) (key : DeclKey) :
    (workspace pair).cache.entries[cacheKey (workspace pair).context key]? = none := by
  refine Option.eq_none_iff_forall_ne_some.mpr fun found kept => ?_
  have before : (∅ : Std.HashMap CacheKey Ty)[cacheKey (workspace pair).context key]?
      = some found := (Cache.of_invalidate_entry kept).1
  simp at before

theorem exec_reference (pair : Bool) : ∃ after,
    exec (nodeType (workspace pair).context ⟨1⟩ (some 2)) (workspace pair).startState
      = (ty pair, after) ∧ after.limitMet = false := by
  have followed : Leads (solveWithin (workspace pair).context 1001 (.expr ⟨1⟩ (some 2) none))
      (workspace pair).startState.guard (workspace pair).startState.depth
      (workspace pair).cache.entries (ty pair) _ _ :=
    leads_reference (unkept pair originalKey) (by cases pair <;> decide) rfl rfl rfl
      (by cases pair <;> decide)
  obtain ⟨after, hrun, reached⟩ := followed _
    (At.start (workspace pair).options (workspace pair).cache)
  refine ⟨after, ?_, reached.unlimited rfl rfl⟩
  exact (exec_nodeType_source (reachable_workspace pair) (found pair) (copies pair)).trans hrun

/-- The guard while `y` is inferred. -/
def inside (pair : Bool) : Guard GuardKey :=
  (workspace pair).startState.guard.counted.pushed (.decl copyKey)

/-- The kept types after `x` has been inferred. -/
def kept (pair : Bool) : Std.HashMap CacheKey Ty :=
  (workspace pair).cache.entries.insert (cacheKey (workspace pair).context originalKey) (ty pair)

theorem leads_copyRule (pair : Bool) : Leads ((Rule.declType (workspace pair).context copyKey).run
    (solveWithin (workspace pair).context 1000)) (inside pair) (workspace pair).startState.depth
    (workspace pair).cache.entries ((ty pair).nthValue 0) (inside pair).counted (kept pair) := by
  rw [copyKey, declType_of_copies (reachable_workspace pair) (found pair) (copies pair)
    (declared pair)]
  exact leads_ask (leads_reference (unkept pair _) (by cases pair <;> decide)
    (by cases pair <;> rfl) (by cases pair <;> rfl) (by cases pair <;> rfl)
    (by cases pair <;> decide)) leads_done

/-- Inferring `y` does not come back to it. -/
theorem straight (pair : Bool) : (workspace pair).Straight copyKey := by
  refine .inl ⟨unkept pair copyKey, ?_⟩
  rintro ⟨inner, opened, reaches⟩
  have unknown : (Task.decl copyKey).known? (workspace pair).context (workspace pair).startState
      = none := unkept pair copyKey
  obtain ⟨entered, opened', hentered, -⟩ := perform_inactive (workspace pair).context
    (solveWithin (workspace pair).context 1000) unknown rfl (by cases pair <;> decide) rfl
  obtain rfl : entered = inner := Option.some.inj (opened'.symm.trans opened)
  have start : At (inside pair) _ _ entered :=
    ((At.start (workspace pair).options _).withGuard (·.counted.pushed _)).noted hentered
  obtain ⟨after, hrule, reached⟩ := leads_copyRule pair entered start
  have hrule : exec ((Rule.declType (workspace pair).context copyKey).run (solveWithin
    (workspace pair).context (2 * (workspace pair).context.options.maxDepth))) entered = _ := hrule
  rw [hrule, reached.guard_eq] at reaches
  exact Guard.not_reaches_none 1 reaches

theorem unlimited_copy (pair : Bool) :
    (workspace pair).Unlimited fun ctx => nodeType ctx ⟨1⟩ (some 3) := by
  have unkept' : (kept pair)[cacheKey (workspace pair).context copyKey]? = none :=
    unkept_insert (by decide) (unkept pair copyKey) (ty pair)
  have bound : ((ty pair).nthValue 0).instantiate (workspace pair).context.bindings
      = (ty pair).nthValue 0 := by cases pair <;> rfl
  obtain ⟨after, hrun, reached⟩ := leads_decl rfl (unkept pair copyKey)
    (by cases pair <;> decide) rfl (leads_copyRule pair) unkept' rfl rfl
    (by cases pair <;> decide) bound _ (At.start (workspace pair).options (workspace pair).cache)
  rw [Unlimited, exec_nodeType_target (reachable_workspace pair) (found pair) (declared pair)]
  exact (congrArg (fun r => r.2.limitMet) hrun).trans (reached.unlimited rfl rfl)

theorem inferType_reference (pair : Bool) :
    ((workspace pair).inferType ⟨1⟩ (some 2) false).1 = ty pair := by
  obtain ⟨after, hrun, -⟩ := exec_reference pair
  exact congrArg Prod.fst hrun

theorem unlimited_reference (pair : Bool) :
    (workspace pair).Unlimited fun ctx => nodeType ctx ⟨1⟩ (some 2) := by
  obtain ⟨after, hrun, unlimited⟩ := exec_reference pair
  exact (congrArg (fun r => r.2.limitMet) hrun).trans unlimited

end Pair

open Pair in
/-- Of a documented number `y` is a copy with the same type. -/
theorem inferType_copy_number :
    let workspace := Pair.workspace false
    workspace.Reachable ∧ (indexed false).tree.Copies 4 3 2 "x" ∧
      (workspace.inferType ⟨1⟩ (some 2) false).1 = .number ∧
      (workspace.inferType ⟨1⟩ (some 3) false).1
        = (workspace.inferType ⟨1⟩ (some 2) false).1 := by
  refine ⟨reachable_workspace false, copies false, inferType_reference false, ?_⟩
  refine inferType_copy (reachable_workspace false) (found false) (copies false) (declared false)
    (straight false) (unlimited_copy false) (unlimited_reference false) ?_
  rw [inferType_reference]
  nofun

open Pair in
/-- Of a documented pair `y` has only the first element, though it is a local variable of the same
file that is copied, without a circle or a limit. -/
theorem inferType_pair_ne :
    let workspace := Pair.workspace true
    workspace.Reachable ∧ workspace.index.file? ⟨1⟩ = some (indexed true) ∧
      (indexed true).tree.Copies 4 3 2 "x" ∧
      (indexed true).decls.declForNode? (some 3) = some copyKey.decl ∧
      workspace.context.snapshot.resolveName ⟨1⟩ "x" 4 = [originalKey] ∧
      workspace.Straight copyKey ∧
      (workspace.Unlimited fun ctx => nodeType ctx ⟨1⟩ (some 3)) ∧
      (workspace.Unlimited fun ctx => nodeType ctx ⟨1⟩ (some 2)) ∧
      (workspace.inferType ⟨1⟩ (some 3) false).1 = .number ∧
      (workspace.inferType ⟨1⟩ (some 2) false).1 = .tuple [.number, .string] := by
  refine ⟨reachable_workspace true, found true, copies true, declared true, resolveName_eq true,
    straight true, unlimited_copy true, unlimited_reference true, ?_, inferType_reference true⟩
  rw [inferType_eq_nthValue (reachable_workspace true) (found true) (copies true) (declared true)
    (straight true) (unlimited_copy true) (unlimited_reference true), inferType_reference]
  rfl

end Workspace

end LuaTyping
