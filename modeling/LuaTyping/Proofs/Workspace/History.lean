import LuaTyping.Proofs.Infer.Globals
import LuaTyping.Proofs.Infer.Ground
import LuaTyping.Workspace

/-!
# Earlier queries

A workspace keeps types between queries, so a query may find types that earlier ones have computed.
Where the rules determine the type of a node without a circle, the answer does not show it: the type
is the same after any earlier queries as in a workspace that has not been asked anything.

Where the rules do run in a circle this fails. The last part has the smallest project in which the
order of two queries changes the answer to the second.
-/

set_option autoImplicit false

namespace LuaTyping

open Infer

/-- The kept snapshot is the one that is found the next time. -/
theorem Index.snapshot_snapshot (index : Index) :
    index.snapshot.2.snapshot.1 = index.snapshot.1 := by
  have renewed (index : Index) :
      (Index.snapshot.renew index).2.snapshot.1 = (Index.snapshot.renew index).1 := by
    simp [Index.snapshot.renew, Index.snapshot]
  cases kept : index.kept with
  | none =>
    have : index.snapshot = Index.snapshot.renew index := by simp [Index.snapshot, kept]
    rw [this, renewed]
  | some made =>
    obtain ⟨version, snapshot⟩ := made
    by_cases current : version = index.version
    · have : index.snapshot = (snapshot, index) := by simp [Index.snapshot, kept, current]
      rw [this]
      exact congrArg Prod.fst this
    · have : index.snapshot = Index.snapshot.renew index := by
        simp [Index.snapshot, kept, current]
      rw [this, renewed]

/-- A question to a workspace. -/
inductive Query where
  | inferType (file : FileId) (node : NodeRef) (cancelled : Bool)
  | references (file : FileId) (node : NodeRef)
  | isSubtype (a b : Ty)

namespace Workspace

/-- The workspace after a question. -/
def afterQuery (workspace : Workspace) : Query → Workspace
  | .inferType file node cancelled => (workspace.inferType file node cancelled).2
  | .references file node => (workspace.references file node).2
  | .isSubtype a b => (workspace.isSubtype a b).2

/-- The context of the queries over the current files. -/
def context (workspace : Workspace) : Context :=
  .make workspace.snapshot.1 workspace.options .empty false

/-- The state in which inferring the type of a node starts. -/
def startState (workspace : Workspace) : State := .start workspace.options workspace.cache

/-- The state in which inferring the type of a node ends. -/
def finalState (workspace : Workspace) (file : FileId) (node : NodeRef) : State :=
  (exec (nodeType workspace.context file node) workspace.startState).2

theorem inferType_eq (workspace : Workspace) (file : FileId) (node : NodeRef) :
    (workspace.inferType file node false).1
      = (exec (nodeType workspace.context file node) workspace.startState).1 := rfl

/-- What is kept in the workspace is what the rules determine, wherever they do. -/
def Sound (workspace : Workspace) : Prop := Infer.Sound workspace.context workspace.startState

/-- A workspace that has not been asked anything. -/
def fresh (index : Index) (options : Options) : Workspace := ⟨index, .empty, options⟩

theorem sound_fresh (index : Index) (options : Options) : (fresh index options).Sound := by
  intro task kept levels ty known
  have unknown :
      task.known? (fresh index options).context (fresh index options).startState = none := by
    cases task <;> simp [Task.known?, context, Context.make, startState, State.start, fresh,
      Cache.empty]
  rw [unknown] at known
  cases known

/-- A query changes nothing but the cache, and a kept snapshot. -/
theorem context_query {α : Type} (workspace : Workspace) (cancelled : Bool)
    (body : Context → InferM α) :
    (workspace.query cancelled body).2.context = workspace.context := by
  have same : (workspace.query cancelled body).2.snapshot.1 = workspace.snapshot.1 :=
    workspace.index.snapshot_snapshot
  rw [context, same]
  rfl

/-- A query that runs keeps the workspace sound. -/
theorem Sound.query {workspace : Workspace} (sound : workspace.Sound) {α : Type}
    (rule : Context → Rule α) :
    (workspace.query false fun ctx => (rule ctx).run (solve ctx)).2.Sound := by
  rw [Workspace.Sound, context_query]
  have ran := (tracks_query rfl (rule workspace.context) sound).1
  intro task kept levels ty known
  refine ran task kept levels ty ?_
  cases task with
  | decl | expr | expansion => exact known
  | classValue name => simp [Task.known?, startState, State.start] at known

theorem Sound.afterQuery {workspace : Workspace} (sound : workspace.Sound) (query : Query) :
    (workspace.afterQuery query).Sound := by
  cases query with
  | inferType file node cancelled =>
    cases cancelled with
    | false => exact sound.query fun ctx => Rule.nodeType ctx file node
    | true =>
      -- a query that is called off keeps nothing
      rw [Workspace.Sound, Workspace.afterQuery, inferType, context_query]
      exact sound
  | references file node => exact sound.query fun ctx => Rule.references ctx file node
  | isSubtype a b => exact sound.query fun ctx => Rule.isSubtype ctx a b

theorem afterQueries {workspace : Workspace} (sound : workspace.Sound) (history : List Query) :
    (history.foldl afterQuery workspace).Sound ∧
      (history.foldl afterQuery workspace).context = workspace.context := by
  induction history generalizing workspace with
  | nil => exact ⟨sound, rfl⟩
  | cons query rest ih =>
    obtain ⟨sound', same⟩ := ih (sound.afterQuery query)
    refine ⟨sound', same.trans ?_⟩
    cases query <;> exact context_query workspace _ _

theorem Sound.inferType_eq {workspace : Workspace} (sound : workspace.Sound) {file : FileId}
    {node : NodeRef} {ty : Ty}
    (determined : (Rule.nodeType workspace.context file node).Determines workspace.context ty)
    (unlimited : (workspace.finalState file node).limitMet = false) :
    (workspace.inferType file node false).1 = ty :=
  (tracks_query rfl _ sound).2 ty determined unlimited

/-- Any earlier queries leave the type of a node as it is in a workspace that has not been asked
anything, if the rules determine the type without a circle and neither query meets a limit. -/
theorem inferType_afterQueries (index : Index) (options : Options) (history : List Query)
    (file : FileId) (node : NodeRef)
    (determined : ∃ ty, (Rule.nodeType (fresh index options).context file node).Determines
      (fresh index options).context ty)
    (unlimited : ((history.foldl afterQuery (fresh index options)).finalState file node).limitMet
      = false)
    (unlimited_fresh : ((fresh index options).finalState file node).limitMet = false) :
    ((history.foldl afterQuery (fresh index options)).inferType file node false).1
      = ((fresh index options).inferType file node false).1 := by
  obtain ⟨ty, determined⟩ := determined
  have sound := sound_fresh index options
  obtain ⟨sound', same⟩ := afterQueries sound history
  rw [sound.inferType_eq determined unlimited_fresh]
  rw [← same] at determined
  exact sound'.inferType_eq determined unlimited

/-! ## A pair of globals -/

/-- Two globals: the first is documented as a list of the second, and that as the comment says. -/
def pairGlobals (comment : TypeExpr) : List DocumentedGlobal :=
  [("a", .array (.name "b" [])), ("b", comment)]

/-- The project of this file. -/
def pair (comment : TypeExpr) : Workspace :=
  fresh (Index.empty.setFile ⟨1⟩ (globalsTree (pairGlobals comment))).2 .standard

namespace GlobalPair

/-- The first global, or the second. -/
def key (second : Bool) : DeclKey := ⟨⟨1⟩, if second then 1 else 0⟩

variable (comment : TypeExpr)

/-- What the walk records of a global. -/
def entry (second : Bool) : Entry :=
  if second then GlobalsTree.entry ("b", comment) 1
  else GlobalsTree.entry ("a", .array (.name "b" [])) 0

theorem context_eq : (pair comment).context = GlobalsProject.context (pairGlobals comment) := rfl

theorem entry?_eq (second : Bool) :
    (pair comment).context.snapshot.entry? (key second) = some (entry comment second) := by
  rw [context_eq]
  cases second <;> exact GlobalsProject.entry?_eq rfl

theorem namesGlobal (second : Bool) :
    NamesGlobal (pair comment).context (entry comment second).name (key second) := by
  rw [context_eq]
  cases second <;> exact GlobalsProject.namesGlobal rfl

variable {comment}

/-- The rule of the first global asks for the second. -/
theorem leads_first {levels : Nat} {guard guard' : Guard GuardKey} {depth : DepthCounter}
    {entries entries' : Std.HashMap CacheKey Ty} {ty : Ty}
    (asked : Leads (perform (pair comment).context (solveWithin (pair comment).context levels)
      (.decl (key true))) guard depth entries ty guard' entries') :
    Leads ((Rule.declType (pair comment).context (key false)).run
        (solveWithin (pair comment).context (levels + 1))) guard depth entries
      (.array (Ty.unionOf [ty])) guard' entries' :=
  leads_list (entry?_eq comment false) rfl rfl rfl (namesGlobal comment true) asked

/-- The node of a global has the type of the global. -/
theorem exec_nodeType (second : Bool) {ty : Ty} {s after : State} (plain : ty.containsAlias = false)
    (hrun : exec (perform (pair comment).context (solveWithin (pair comment).context 1000)
      (.decl (key second))) s = (ty, after)) :
    exec (nodeType (pair comment).context ⟨1⟩ (entry comment second).node) s = (ty, after) := by
  rw [context_eq] at hrun ⊢
  cases second with
  | false => exact GlobalsProject.exec_nodeType (Nat.zero_lt_succ 1) plain hrun
  | true => exact GlobalsProject.exec_nodeType (Nat.lt_succ_self 1) plain hrun

end GlobalPair

open GlobalPair

/-! ### A list of numbers -/

/-- The second global is a number. -/
abbrev numbers : Workspace := pair (.name "number" [])

namespace ListOfNumbers

variable {guard guard' : Guard GuardKey} {depth : DepthCounter}
  {entries entries' : Std.HashMap CacheKey Ty}

theorem rule_second : Rule.declType numbers.context (key true)
    = Plan.ask (.resolve .number) fun ty =>
        .done (Rule.withGenerics (entry (.name "number" []) true) ty) :=
  declType_documented (entry?_eq _ true) rfl rfl rfl

theorem leads_second (levels : Nat) (unkept : entries[cacheKey numbers.context (key true)]? = none)
    (room : ¬ guard.Spent) (inactive : guard.position? (.decl (key true)) = none)
    (guard_fine : guard.exceeded = false) (depth_fine : depth.exceeded = false) :
    Leads (perform numbers.context (solveWithin numbers.context (levels + 1)) (.decl (key true)))
      guard depth entries .number guard.counted
      (entries.insert (cacheKey numbers.context (key true)) .number) :=
  leads_documented rfl rule_second (fun s h => ⟨s, rfl, h⟩) rfl rfl unkept room inactive guard_fine
    depth_fine

/-- The guard inside the first global. -/
def inside : Guard GuardKey := numbers.startState.guard.counted.pushed (.decl (key false))

/-- The first global is a list of numbers, however the second one is found to be a number. -/
theorem leads_first (levels : Nat)
    (unkept : entries[cacheKey numbers.context (key false)]? = none)
    (asked : Leads (perform numbers.context (solveWithin numbers.context levels) (.decl (key true)))
      inside numbers.startState.depth entries .number guard' entries')
    (unkept' : entries'[cacheKey numbers.context (key false)]? = none)
    (fine : guard'.exceeded = false) (final : (guard'.leave (.decl (key false))).1 = false) :
    Leads (perform numbers.context (solveWithin numbers.context (levels + 1)) (.decl (key false)))
      numbers.startState.guard numbers.startState.depth entries (.array .number)
      (guard'.leave (.decl (key false))).2
      (entries'.insert (cacheKey numbers.context (key false)) (.array .number)) :=
  leads_decl rfl unkept (by decide) rfl (GlobalPair.leads_first asked) unkept' fine rfl final rfl

theorem determines_first :
    (Rule.nodeType numbers.context ⟨1⟩ (some 0)).Determines numbers.context (.array .number) := by
  have follow (levels : Nat) (path : List GuardKey) (goal : Goal) :
      groundWithin numbers.context (levels + 1) path goal = (goal.plan numbers.context).eval
        (Task.ground numbers.context (groundWithin numbers.context levels) path) := rfl
  have second : Task.ground numbers.context (groundWithin numbers.context 1) [.decl (key false)]
      (.decl (key true)) = some .number := by
    have new : GuardKey.decl (key true) ∉ [GuardKey.decl (key false)] := by decide
    simp only [Task.ground, Task.guardKey?, if_neg new, Task.rule, rule_second, Plan.eval, follow]
    rfl
  have rule : Rule.declType numbers.context (key false)
      = Plan.ask (.resolve (.array (.aliasRef "b" []))) fun ty =>
          .done (Rule.withGenerics (entry (.name "number" []) false) ty) :=
    declType_documented (entry?_eq _ false) rfl rfl rfl
  have listed : (Goal.resolve (.array (.aliasRef "b" []))).plan numbers.context = _ :=
    (namesGlobal (.name "number" []) true).plan_eq
  have first : groundWithin numbers.context 3 [] (.decl (key false)) = some (.array .number) := by
    have plan : (Goal.decl (key false)).plan numbers.context = .ask (.decl (key false)) .done := rfl
    rw [follow, plan, Plan.eval, Task.ground]
    simp only [Task.guardKey?, List.not_mem_nil, if_false, Task.rule, rule, Plan.eval, follow,
      listed, second]
    rfl
  have there : 0 < (pairGlobals (.name "number" [])).length := Nat.zero_lt_succ 1
  have node : Rule.nodeType numbers.context ⟨1⟩ (some 0)
      = Plan.ask (.decl (key false)) fun ty => .ask (.resolve ty) fun ty => .done ty.eraseRefs :=
    GlobalsProject.nodeType_rule there
  refine ⟨3, ?_⟩
  rw [node, Plan.eval, first]
  rfl

end ListOfNumbers

open ListOfNumbers in
/-- A list of numbers, after the number has been asked for and is kept. -/
theorem inferType_afterQueries_numbers :
    let asked := ([.inferType ⟨1⟩ (some 3) false] : List Query).foldl afterQuery numbers
    asked.cache.entries[cacheKey numbers.context (key true)]? = some .number ∧
      (asked.inferType ⟨1⟩ (some 0) false).1 = (numbers.inferType ⟨1⟩ (some 0) false).1 ∧
      (numbers.inferType ⟨1⟩ (some 0) false).1 = .array .number := by
  intro asked
  have none_kept (second : Bool) :
      (∅ : Std.HashMap CacheKey Ty)[cacheKey numbers.context (key second)]? = none :=
    Std.HashMap.getElem?_empty
  have unkept : ((∅ : Std.HashMap CacheKey Ty).insert (cacheKey numbers.context (key true))
      .number)[cacheKey numbers.context (key false)]? = none :=
    unkept_insert (by decide) (none_kept false) .number
  -- asking for the second global keeps its type
  obtain ⟨after, hsecond, reached⟩ :=
    leads_second 999 (none_kept true) (by decide) rfl rfl rfl _ (.start .standard .empty)
  have cache_eq : asked.cache = after.cache :=
    congrArg (fun r => r.2.cache) (exec_nodeType true rfl hsecond)
  have context_eq : asked.context = numbers.context := context_query numbers _ _
  have start_eq : asked.startState = State.start .standard after.cache :=
    congrArg (State.start .standard) cache_eq
  have start : At numbers.startState.guard numbers.startState.depth _ asked.startState :=
    start_eq ▸ reached.entries_eq ▸ At.start .standard after.cache
  obtain ⟨later, hlater, reached_later⟩ :=
    leads_first 999 unkept (leads_kept rfl Std.HashMap.getElem?_insert_self) unkept (by decide)
      (by decide) _ start
  obtain ⟨freshly, hfresh, reached_fresh⟩ :=
    leads_first 999 (none_kept false)
      (leads_second 998 (none_kept true) (by decide) (by decide) (by decide) rfl) unkept (by decide)
      (by decide) _ (.start .standard .empty)
  have hlater := exec_nodeType false rfl hlater
  have hfresh := exec_nodeType false rfl hfresh
  have kept : asked.cache.entries[cacheKey numbers.context (key true)]? = some .number := by
    rw [cache_eq, reached.entries_eq, Std.HashMap.getElem?_insert_self]
  refine ⟨kept, inferType_afterQueries _ _ _ ⟨1⟩ (some 0) ⟨_, determines_first⟩ ?_ ?_, ?_⟩
  · show (exec (nodeType asked.context ⟨1⟩ (some 0)) asked.startState).2.limitMet = false
    rw [context_eq]
    exact congrArg (fun r => r.2.limitMet) hlater |>.trans
      (reached_later.unlimited (by decide) rfl)
  · exact congrArg (fun r => r.2.limitMet) hfresh |>.trans
      (reached_fresh.unlimited (by decide) rfl)
  · exact congrArg Prod.fst hfresh

/-! ### A circle -/

/-- Two globals, each documented as a list of the other. -/
def circleTree : Tree := globalsTree (pairGlobals (.array (.name "a" [])))

/-- The project of this file. -/
def circle : Workspace := fresh (Index.empty.setFile ⟨1⟩ circleTree).2 .standard

namespace CircularPair

def indexed : IndexedFile := ⟨⟨1⟩, 1, circleTree, .ofTree ⟨1⟩ circleTree⟩

/-- What the walk records of a global. -/
abbrev entry (second : Bool) : Entry := GlobalPair.entry (.array (.name "a" [])) second

variable {depth : DepthCounter} {guard guard' : Guard GuardKey}
  {entries entries' : Std.HashMap CacheKey Ty} {ty : Ty} {s : State}

/-- The rule of a global asks for the other one. -/
theorem leads_other (second : Bool) {levels : Nat}
    (asked : Leads (perform circle.context (solveWithin circle.context levels)
      (.decl (key !second))) guard depth entries ty guard' entries') :
    Leads ((Rule.declType circle.context (key second)).run
        (solveWithin circle.context (levels + 1)))
      guard depth entries (.array (Ty.unionOf [ty])) guard' entries' := by
  have names := namesGlobal (.array (.name "a" [])) (!second)
  cases second <;> exact leads_list (GlobalPair.entry?_eq _ _) rfl rfl rfl names asked

/-- The guard inside a global. -/
def inside (second : Bool) : Guard GuardKey :=
  circle.startState.guard.counted.pushed (.decl (key second))

/-- The guard inside a global and the other one in it. -/
def innermost (second : Bool) : Guard GuardKey :=
  (inside second).counted.pushed (.decl (key !second))

/-- Asked for first, a global is cut short inside the other one. -/
theorem first_run (second : Bool) (levels : Nat)
    (h : At circle.startState.guard circle.startState.depth ∅ s) :
    ∃ after,
      exec (perform circle.context (solveWithin circle.context (levels + 2)) (.decl (key second))) s
        = (.array (.array .unknown), after) ∧
      after.cache.entries = (∅ : Std.HashMap CacheKey Ty).insert
        (cacheKey circle.context (key second)) (.array (.array .unknown)) ∧
      after.limitMet = false := by
  have unkept (second : Bool) :
      (∅ : Std.HashMap CacheKey Ty)[cacheKey circle.context (key second)]? = none :=
    Std.HashMap.getElem?_empty
  have cut : Leads (perform circle.context (solveWithin circle.context levels)
      (.decl (key !!second))) (innermost second) circle.startState.depth ∅ .unknown
      ((innermost second).counted.lowered 0) ∅ :=
    leads_cut rfl (unkept _) (by cases second <;> decide) (by cases second <;> decide)
  -- the other one has met this one, so it is provisional and not kept
  have other := leads_provisional rfl (unkept !second)
    (by cases second <;> decide : ¬ (inside second).Spent) (by cases second <;> decide)
    (leads_other (!second) cut) (by cases second <;> decide) rfl
  obtain ⟨after, hrun, reached⟩ := leads_decl rfl (unkept second)
    (by decide : ¬ circle.startState.guard.Spent) rfl (leads_other second other) (unkept second)
    (by cases second <;> decide) rfl (by cases second <;> decide) rfl s h
  exact ⟨after, hrun, reached.entries_eq, reached.unlimited (by cases second <;> decide) rfl⟩

/-- Asked for after the other one, a global is a list of what is kept of that. -/
theorem later_run (second : Bool) (levels : Nat) {kept : Ty}
    (known : entries[cacheKey circle.context (key !second)]? = some kept)
    (unkept : entries[cacheKey circle.context (key second)]? = none)
    (h : At circle.startState.guard circle.startState.depth entries s) :
    ∃ after,
      exec (perform circle.context (solveWithin circle.context (levels + 1)) (.decl (key second))) s
        = (.array (Ty.unionOf [kept]), after) ∧
      after.limitMet = false := by
  have other : Leads (perform circle.context (solveWithin circle.context levels)
      (.decl (key !second))) (inside second) circle.startState.depth entries kept (inside second)
      entries :=
    leads_kept rfl known
  obtain ⟨after, hrun, reached⟩ := leads_decl rfl unkept
    (by decide : ¬ circle.startState.guard.Spent) rfl (leads_other second other) unkept
    (by cases second <;> decide) rfl (by cases second <;> decide)
    (show (Ty.array (Ty.unionOf [kept])).instantiate .empty = _ from rfl) s h
  exact ⟨after, hrun, reached.unlimited (by cases second <;> decide) rfl⟩

end CircularPair

open CircularPair in
/-- Once the first global has been asked for, the second one has another type than before, though no
limit is met. -/
theorem inferType_circle :
    let asked := circle.afterQuery (.inferType ⟨1⟩ (some 0) false)
    (circle.finalState ⟨1⟩ (some 3)).limitMet = false ∧
    (asked.finalState ⟨1⟩ (some 3)).limitMet = false ∧
    Ty.eqv (asked.inferType ⟨1⟩ (some 3) false).1 (circle.inferType ⟨1⟩ (some 3) false).1
      = false := by
  intro asked
  obtain ⟨after, hfirst, entries_eq, -⟩ := first_run false 998 (.start .standard .empty)
  obtain ⟨freshly, hfresh, -, unlimited⟩ := first_run true 998 (.start .standard .empty)
  have hfirst := exec_nodeType false rfl hfirst
  have hfresh := exec_nodeType true rfl hfresh
  have cache_eq : asked.cache = after.cache := congrArg (fun r => r.2.cache) hfirst
  have context_eq : asked.context = circle.context := context_query circle _ _
  obtain ⟨later, hlater, unlimited'⟩ :=
    later_run true 999 (by rw [entries_eq]; exact Std.HashMap.getElem?_insert_self)
      (by rw [entries_eq]; exact unkept_insert (by decide) Std.HashMap.getElem?_empty _)
      (At.start .standard after.cache)
  have hlater := exec_nodeType true rfl hlater
  have start_eq : asked.startState = State.start .standard after.cache :=
    congrArg (State.start .standard) cache_eq
  rw [finalState, finalState, inferType_eq, inferType_eq, context_eq, start_eq]
  have fresh_eq : exec (nodeType circle.context ⟨1⟩ (some 3)) circle.startState = _ := hfresh
  have later_eq : exec (nodeType circle.context ⟨1⟩ (some 3))
      (State.start .standard after.cache) = _ := hlater
  rw [fresh_eq, later_eq]
  exact ⟨unlimited, unlimited', rfl⟩

end Workspace

end LuaTyping
