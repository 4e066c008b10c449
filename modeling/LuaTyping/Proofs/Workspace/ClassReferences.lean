import LuaTyping.Proofs.Decl.Steps
import LuaTyping.Proofs.Infer.Shallow
import LuaTyping.Proofs.Workspace.History

/-!
# Comparing a class by name

A class can be handed to a workspace by its name alone or as the value that the workspace itself
gives for the class, with its supertypes and members. The two are equal as types. Whether they are
below another type is answered alike, whatever was asked before, if the rules determine the answer
for the name without a circle and no member of unknown type is asked for at unknown type
(`isSubtype_classRef_eq_classValue`).

A class with a member of unknown type shows that the second condition is needed: the class is below
the record that asks for the member at unknown type, and its name is not.
-/

set_option autoImplicit false

namespace LuaTyping

open Infer

namespace Workspace

/-- The value of a class, asked for in a query of its own. -/
def classValue (workspace : Workspace) (name : String) : Ty × Workspace :=
  workspace.query false fun ctx => solve ctx (.classValue name)

/-- A query meets no limit. -/
def Unlimited {α : Type} (workspace : Workspace) (body : Context → InferM α) : Prop :=
  (exec (body workspace.context) workspace.startState).2.limitMet = false

/-- A workspace over the files of an index that has been asked the given questions. -/
def asked (index : Index) (options : Options) (history : List Query) : Workspace :=
  history.foldl afterQuery (fresh index options)

/-! ## Kept types without references -/

theorem resolved_query {workspace : Workspace} (kept : workspace.cache.Resolved) {α : Type}
    (cancelled : Bool) (rule : Context → Rule α) :
    (workspace.query cancelled fun ctx => (rule ctx).run (solve ctx)).2.cache.Resolved :=
  (Contract.gives_run (reliable_solveWithin Bindings.resolved_empty _) (Plan.Yields.any (rule _))
    (State.Resolved.start workspace.options kept)).state.cache

theorem resolved_afterQueries {workspace : Workspace} (kept : workspace.cache.Resolved)
    (history : List Query) : (history.foldl afterQuery workspace).cache.Resolved := by
  induction history generalizing workspace with
  | nil => exact kept
  | cons query rest ih =>
    refine ih ?_
    cases query with
    | inferType file node cancelled =>
      exact resolved_query kept cancelled fun ctx => Rule.nodeType ctx file node
    | references file node =>
      exact resolved_query kept false fun ctx => Rule.references ctx file node
    | isSubtype a b => exact resolved_query kept false fun ctx => Rule.isSubtype ctx a b

theorem resolved_fresh (index : Index) (options : Options) :
    (fresh index options).cache.Resolved := by
  intro key ty found
  simp [fresh, Cache.empty] at found

/-! ## By name and by value -/

/-- The value that a workspace gives for a class. -/
theorem Sound.classValue_eq {workspace : Workspace} (sound : workspace.Sound) {name : String}
    (unlimited : workspace.Unlimited fun ctx => solve ctx (.classValue name)) :
    ∃ members, Rule.Shows workspace.context name members ∧
      (workspace.classValue name).1
        = .named name (Rule.acyclicSupertypes workspace.context.snapshot name) members :=
  solve_classValue rfl sound name unlimited

theorem resolved_classValue {workspace : Workspace} (kept : workspace.cache.Resolved)
    (name : String) : (workspace.classValue name).1.Resolved := by
  have bindings : workspace.context.bindings.Resolved := Bindings.resolved_empty
  exact (reliable_solveWithin bindings (2 * workspace.options.maxDepth + 1) (.classValue name) _
    (State.Resolved.start workspace.options kept)).answer trivial

theorem isSubtype_eq (workspace : Workspace) (a b : Ty) :
    (workspace.isSubtype a b).1
      = (exec (Infer.isSubtype workspace.context a b) workspace.startState).1 := rfl

theorem Sound.isSubtype_eq {workspace : Workspace} (sound : workspace.Sound) {ctx : Context}
    (same : workspace.context = ctx) {a b : Ty} {answer : Bool}
    (determined : (Rule.isSubtype ctx a b).Determines ctx answer)
    (unlimited : workspace.Unlimited fun ctx => Infer.isSubtype ctx a b) :
    (workspace.isSubtype a b).1 = answer := by
  subst same
  exact (tracks_query rfl _ sound).2 answer determined unlimited

/-- A class is equal to its value, and it is below a type by its name if and only if it is by its
value, whatever was asked before. The rules have to determine the answer for the name without a
circle; no member of unknown type may be asked for at unknown type; and no query may meet a
limit. -/
theorem isSubtype_classRef_eq_classValue (index : Index) (options : Options)
    (before before' before'' : List Query) {name : String} {value b wanted : Ty}
    (built : ((asked index options before).classValue name).1 = value)
    (determined : ∃ answer, (Rule.isSubtype (fresh index options).context (.classRef name)
      b).Determines (fresh index options).context answer)
    (looked_up : (Rule.ask (.resolve b)).Determines (fresh index options).context wanted)
    (known : AskedKnown value.listedMembers wanted)
    (unlimited : (asked index options before).Unlimited fun ctx => solve ctx (.classValue name))
    (unlimited' : (asked index options before').Unlimited
      fun ctx => Infer.isSubtype ctx (.classRef name) b)
    (unlimited'' : (asked index options before'').Unlimited
      fun ctx => Infer.isSubtype ctx value b) :
    (Ty.classRef name).eqv value = true ∧
      ((asked index options before').isSubtype (.classRef name) b).1
        = ((asked index options before'').isSubtype value b).1 := by
  obtain ⟨answer, determined⟩ := determined
  have sound := sound_fresh index options
  obtain ⟨sound₁, same₁⟩ := afterQueries sound before
  obtain ⟨sound₂, same₂⟩ := afterQueries sound before'
  obtain ⟨sound₃, same₃⟩ := afterQueries sound before''
  have resolved : value.Resolved := built ▸
    resolved_classValue (resolved_afterQueries (resolved_fresh index options) before) name
  obtain ⟨members, shows, hvalue⟩ := sound₁.classValue_eq unlimited
  rw [same₁] at shows hvalue
  cases built.symm.trans hvalue
  have determined' := determines_isSubtype shows resolved looked_up known determined
  refine ⟨beq_self_eq_true name, ?_⟩
  exact (sound₂.isSubtype_eq same₂ determined unlimited').trans
    (sound₃.isSubtype_eq same₃ determined' unlimited'').symm

/-! ## A member of unknown type -/

/-- A class with a member of known type and one whose type refers to nothing. -/
def pointTree : Tree where
  nodes := #[⟨.docOnly, ⟨0, 1⟩, some 1⟩, ⟨.block [some 0], ⟨0, 3⟩, some 2⟩,
    ⟨.chunk (some 1), ⟨0, 5⟩, none⟩]
  docs := .ofList
    [(0, ⟨[.classTag "Point" [], .fieldTag .publicAccess "x" (.name "number" []),
      .fieldTag .publicAccess "tag" (.name "Missing" [])]⟩)]
  root := some 2

/-- The files of the project. -/
def pointIndex : Index := (Index.empty.setFile ⟨1⟩ pointTree).2

namespace Point

/-- The known member, or the unknown one. -/
def name (unknown : Bool) : String := if unknown then "tag" else "x"

def key (unknown : Bool) : DeclKey := ⟨⟨1⟩, if unknown then 2 else 1⟩

/-- What the comment says about its type. -/
def declared (unknown : Bool) : Ty := if unknown then .aliasRef "Missing" [] else .number

/-- Its type. -/
def ty (unknown : Bool) : Ty := if unknown then .unknown else .number

/-- What the walk records of the class. -/
def classEntry : Entry :=
  { Entry.plain 0 .classDecl "Point" (some 0) (some 0) ⟨0, 1⟩ with hoisted := true }

/-- What the walk records of a member. -/
def entry (unknown : Bool) : Entry :=
  { Entry.plain (if unknown then 2 else 1) .field (name unknown) (some 0) (some 0) ⟨0, 1⟩ with
    owner := some (.ofClass "Point")
    worth := .documented
    declared := some (declared unknown) }

/-- The context of queries about the class. -/
def ctx : Context := (fresh pointIndex .standard).context

theorem entries_eq :
    (Collect.run pointTree).table.entries = #[classEntry, entry false, entry true] := by
  have doc : pointTree.doc? (some 0)
      = some ⟨[.classTag "Point" [], .fieldTag .publicAccess "x" (.name "number" []),
          .fieldTag .publicAccess "tag" (.name "Missing" [])]⟩ :=
    Std.HashMap.getElem?_ofList_of_mem (k := 0) rfl (by simp) (by simp)
  rw [Collect.run_docOnly rfl rfl rfl doc]
  rfl

def indexed : IndexedFile := ⟨⟨1⟩, 1, pointTree, .ofTree ⟨1⟩ pointTree⟩

theorem entry?_eq (unknown : Bool) : ctx.snapshot.entry? (key unknown) = some (entry unknown) := by
  refine (Snapshot.entry?_of_file? (Snapshot.file?_singleton indexed) (key unknown).decl).trans ?_
  show (Collect.run pointTree).table.entries[(key unknown).decl]? = _
  rw [entries_eq]
  cases unknown <;> rfl

theorem listed_eq (key? : Entry → Option String) (name : String) :
    indexed.listed key? name
      = ([(classEntry, 0), (entry false, 1), (entry true, 2)].filter
          fun pair => key? pair.1 == some name).map fun pair => ⟨⟨1⟩, pair.2⟩ := by
  have entries : indexed.decls.table.entries = #[classEntry, entry false, entry true] := entries_eq
  rw [IndexedFile.listed_eq, entries]
  rfl

theorem classMembers_eq : ctx.snapshot.classMembers "Point" = [key false, key true] := by
  have globals : (Snapshot.ofFiles [indexed]).globalDecls "Point" = [] := by
    rw [Snapshot.globalDecls_ofFiles, List.flatMap_singleton, listed_eq]
    rfl
  show (Snapshot.ofFiles [indexed]).classMembers "Point" = _
  rw [Snapshot.classMembers, Snapshot.globalHoldsClass, globals, Snapshot.attachedToClass_ofFiles,
    List.flatMap_singleton, listed_eq]
  rfl

/-- Looking up what the comment says asks for nothing. -/
theorem leads_resolve (unknown : Bool) (levels : Nat) {guard : Guard GuardKey}
    {depth : DepthCounter} {entries : Std.HashMap CacheKey Ty} :
    Leads (solveWithin ctx (levels + 1) (.resolve (declared unknown))) guard depth entries
      (ty unknown) guard entries := by
  intro s h
  cases unknown with
  | false => exact ⟨s, rfl, h⟩
  | true =>
    have nothing : expandRef ctx "Missing" (pure []) = .note "Missing" (.done .unknown) := by
      have isClass : ctx.snapshot.isClass "Missing" = false := by
        show (Snapshot.ofFiles [indexed]).isClass "Missing" = false
        rw [Snapshot.isClass_ofFiles, Snapshot.classDecls_ofFiles, List.flatMap_singleton,
          listed_eq]
        rfl
      have aliases : ctx.snapshot.aliasDecls "Missing" = [] := by
        show (Snapshot.ofFiles [indexed]).aliasDecls "Missing" = []
        rw [Snapshot.aliasDecls_ofFiles, List.flatMap_singleton, listed_eq]
        rfl
      have globals : ctx.snapshot.globalDecls "Missing" = [] := by
        show (Snapshot.ofFiles [indexed]).globalDecls "Missing" = []
        rw [Snapshot.globalDecls_ofFiles, List.flatMap_singleton, listed_eq]
        rfl
      simp only [expandRef, isClass, aliases, globals]
      rfl
    refine ⟨_, ?_, h.noted (noted_recordName s "Missing")⟩
    show exec ((expandRef ctx "Missing" (pure [])).run _) s = _
    rw [nothing]
    rfl

/-- The members as the value of the class has them. -/
def member (unknown : Bool) (ty : Ty) : Member Ty :=
  { Member.ofTy (name unknown) ty with site := some ⟨⟨1⟩, ⟨0, 1⟩⟩ }

theorem classValue_eq : Rule.classValue ctx "Point"
    = Plan.ask (.decl (key false)) fun x => Plan.ask (.decl (key true)) fun tag =>
        .done (.named "Point" (Rule.acyclicSupertypes ctx.snapshot "Point")
          [member false (Ty.unionOf [x]), member true (Ty.unionOf [tag])]) := by
  have groups : Rule.groupMembers ctx.snapshot [key false, key true]
      = [⟨"x", 1000, [key false]⟩, ⟨"tag", 1000, [key true]⟩] := by
    simp only [Rule.groupMembers, List.foldl_cons, List.foldl_nil, entry?_eq]
    rfl
  simp only [Rule.classValue, Rule.memberList, classMembers_eq, groups, List.mapM_cons,
    List.mapM_nil, Rule.groupMember, List.head?_cons, Option.bind_some, entry?_eq]
  simp only [List.any_cons, List.any_nil, entry?_eq]
  rfl

theorem classMember_eq (unknown : Bool) : Rule.classMember ctx "Point" (name unknown)
    = Plan.note "Point" (Plan.ask (.decl (key unknown)) fun ty => .done (Ty.unionOf [ty])) := by
  have own : (ctx.snapshot.classMembers "Point").filter (ctx.snapshot.isNamed (name unknown))
      = [key unknown] := by
    rw [classMembers_eq]
    cases unknown <;> simp [Snapshot.isNamed, entry?_eq, entry, Entry.plain, name]
  have best : Rule.bestOf ctx.snapshot [key unknown] = [key unknown] := by
    simp [Rule.bestOf, Rule.worthOf, entry?_eq]
  obtain ⟨above, chain⟩ : ∃ above, ctx.snapshot.classChain "Point" = "Point" :: above := ⟨_, rfl⟩
  rw [Rule.classMember, chain, Rule.classMember.search, own]
  simp only [Rule.bestType, best]
  rfl

/-- The type of a member that is not kept is kept afterwards. -/
theorem leads_member (unknown : Bool) (levels : Nat) {guard : Guard GuardKey}
    {depth : DepthCounter} {entries : Std.HashMap CacheKey Ty}
    (unkept : entries[cacheKey ctx (key unknown)]? = none) (room : ¬ guard.Spent)
    (inactive : guard.position? (.decl (key unknown)) = none) (guard_fine : guard.exceeded = false)
    (depth_fine : depth.exceeded = false) :
    Leads (solveWithin ctx (levels + 2) (.decl (key unknown))) guard depth entries (ty unknown)
      guard.counted (entries.insert (cacheKey ctx (key unknown)) (ty unknown)) := by
  have rule : Rule.declType ctx (key unknown)
      = Plan.ask (.resolve (declared unknown)) fun found =>
          .done (Rule.withGenerics (entry unknown) found) := by
    rw [Rule.declType, entry?_eq]
    rfl
  have unchanged : Rule.withGenerics (entry unknown) (ty unknown) = ty unknown := by
    cases unknown <;> rfl
  have bound : (ty unknown).instantiate ctx.bindings = ty unknown := by cases unknown <;> rfl
  exact leads_documented rfl rule (leads_resolve unknown levels) unchanged bound unkept room
    inactive guard_fine depth_fine

/-- Neither member is kept under the key of the other one. -/
theorem unkept_other (found : Ty) :
    ((∅ : Std.HashMap CacheKey Ty).insert (cacheKey ctx (key false)) found)[
      cacheKey ctx (key true)]? = none :=
  unkept_insert (by decide) Std.HashMap.getElem?_empty found

/-- The value of the class. -/
def value : Ty :=
  .named "Point" (Rule.acyclicSupertypes ctx.snapshot "Point")
    [member false .number, member true .unknown]

/-- The guard while the value of the class is built. -/
def opened : Guard GuardKey :=
  (State.start .standard .empty).guard.counted.pushed (.className "Point")

theorem leads_classValue :
    ∃ entries, Leads ((Rule.classValue ctx "Point").run (solveWithin ctx 1000)) opened
      (State.start .standard .empty).depth ∅ value opened.counted.counted entries := by
  rw [classValue_eq]
  exact ⟨_, leads_ask
    (leads_member false 998 Std.HashMap.getElem?_empty (by decide) (by decide) rfl rfl)
    (leads_ask (leads_member true 998 (unkept_other _) (by decide) (by decide) rfl rfl) leads_done)⟩

theorem exec_classValue : ∃ after,
    exec (solve ctx (.classValue "Point")) (State.start .standard .empty) = (value, after) ∧
      after.limitMet = false := by
  have unmade : (Task.classValue "Point").known? ctx (State.start .standard .empty) = none :=
    Std.HashMap.getElem?_empty
  obtain ⟨inside, -, hinside, done, hdone, hrun⟩ := perform_inactive ctx (solveWithin ctx 1000)
    unmade rfl (by decide) rfl
  have entered : At opened (State.start .standard .empty).depth ∅ inside :=
    ((At.start .standard .empty).withGuard (·.counted.pushed _)).noted hinside
  obtain ⟨entries, followed⟩ := leads_classValue
  obtain ⟨after, hrule, reached⟩ := followed inside entered
  have hrule : exec (((Task.classValue "Point").rule ctx).run (solveWithin ctx 1000)) inside
      = (value, after) := hrule
  rw [hrule] at hdone hrun
  obtain ⟨final, closed, limit⟩ := close_classValue ctx "Point" value done
  exact ⟨final, hrun.trans closed, limit.trans ((reached.noted hdone).unlimited rfl rfl)⟩

/-- A record with one member. -/
def recordOf (unknown : Bool) : Ty := .record [] [Member.ofTy (name unknown) (ty unknown)]

/-- Comparing the value with the record looks nothing up. -/
theorem isSubtype_value (unknown : Bool) (s : State) :
    exec (Infer.isSubtype ctx value (recordOf unknown)) s = (true, s) := by
  cases unknown <;> rfl

theorem lookupMember_eq (unknown : Bool) : (Rule.resolver ctx).lookupMember "Point" (name unknown)
    = Plan.note "Point" (Plan.ask (.decl (key unknown)) fun found =>
        .done (if (Ty.unionOf [found]).isKnown then some (Ty.unionOf [found]) else none)) := by
  simp only [Rule.resolver, classMember_eq]
  rfl

/-- Comparing the name with the record asks for the member, and takes one of unknown type for
none. -/
theorem decideFresh_classRef (unknown : Bool) :
    ∃ next,
      Subtyping.decideFresh ⟨Rule.resolver ctx, ctx.options.nilStrict⟩ (.classRef "Point")
          (recordOf unknown)
        = Plan.note "Point" (Plan.ask (.decl (key unknown)) next) ∧
      next (ty unknown) = .done (!unknown) := by
  have lookup := lookupMember_eq unknown
  rw [recordOf, decideFresh_record]
  simp only [Member.ofTy, lookup]
  exact ⟨_, rfl, by cases unknown <;> rfl⟩

theorem exec_isSubtype_classRef (unknown : Bool) :
    ∃ after, exec (Infer.isSubtype ctx (.classRef "Point") (recordOf unknown))
        (State.start .standard .empty) = (!unknown, after) ∧ after.limitMet = false := by
  obtain ⟨next, plan, last⟩ := decideFresh_classRef unknown
  have noted := noted_recordName (State.start .standard .empty) "Point"
  obtain ⟨after, found, reached⟩ := leads_member unknown 999 Std.HashMap.getElem?_empty (by decide)
    rfl rfl rfl _ ((At.start .standard .empty).noted noted)
  refine ⟨after, ?_, reached.unlimited rfl rfl⟩
  have compared : exec (Infer.isSubtype ctx (.classRef "Point") (recordOf unknown))
        (State.start .standard .empty)
      = exec ((Subtyping.decideFresh ⟨Rule.resolver ctx, ctx.options.nilStrict⟩ (.classRef "Point")
          (recordOf unknown)).run (solve ctx)) (State.start .standard .empty) := by
    cases unknown <;> rfl
  rw [compared, plan, exec_run_note, exec_run_ask]
  show exec ((next (exec (solveWithin ctx 1001 (.decl (key unknown))) _).1).run (solve ctx))
    (exec (solveWithin ctx 1001 (.decl (key unknown))) _).2 = _
  rw [found, last]
  rfl

/-- The rules determine that the class has the known member. -/
theorem determines_isSubtype_known :
    (Rule.isSubtype ctx (.classRef "Point") (recordOf false)).Determines ctx true := by
  obtain ⟨next, plan, last⟩ := decideFresh_classRef false
  have known : groundWithin ctx 2 [] (.decl (key false)) = some .number := by
    rw [groundWithin_task]
    simp only [Task.ground, Task.guardKey?, Task.rule, Rule.declType, entry?_eq]
    rfl
  refine ⟨2, ?_⟩
  show (Subtyping.decideFresh ⟨Rule.resolver ctx, ctx.options.nilStrict⟩ (.classRef "Point")
    (recordOf false)).eval (groundWithin ctx 2 []) = some true
  rw [plan, Plan.eval, Plan.eval, known, Option.bind_some]
  exact congrArg (Plan.eval _) last

theorem askedKnown_known : AskedKnown Point.value.listedMembers (recordOf false) := by
  rintro member - - (⟨mem, -, unknown⟩ | ⟨mem, asks⟩)
  cases List.mem_singleton.mp mem
  cases unknown

theorem classValue_fresh : ((fresh pointIndex .standard).classValue "Point").1 = value := by
  obtain ⟨after, built, -⟩ := exec_classValue
  exact congrArg Prod.fst built

end Point

open Point in
/-- The class has its known member by name as it has it by value. -/
theorem isSubtype_classRef_eq_classValue_point :
    let workspace := fresh pointIndex .standard
    let value := (workspace.classValue "Point").1
    let hasX : Ty := .record [] [Member.ofTy "x" .number]
    (Ty.classRef "Point").eqv value = true ∧
      (workspace.isSubtype (.classRef "Point") hasX).1 = (workspace.isSubtype value hasX).1 := by
  intro workspace value hasX
  obtain ⟨after, built, unlimited⟩ := exec_classValue
  obtain ⟨after', compared, unlimited'⟩ := exec_isSubtype_classRef false
  have hvalue : value = Point.value := classValue_fresh
  rw [hvalue]
  refine isSubtype_classRef_eq_classValue pointIndex .standard [] [] [] classValue_fresh
    ⟨true, determines_isSubtype_known⟩ ⟨1, rfl⟩ askedKnown_known ?_ ?_ ?_
  · exact (congrArg (fun r => r.2.limitMet) built).trans unlimited
  · exact (congrArg (fun r => r.2.limitMet) compared).trans unlimited'
  · exact congrArg (fun r => r.2.limitMet) (isSubtype_value false workspace.startState)

open Point in
/-- The value of the class is below the record that asks for the other member at unknown type. The
name of the class is not, though it is equal to the value. -/
theorem isSubtype_classRef_ne_classValue :
    let workspace := fresh pointIndex .standard
    let value := (workspace.classValue "Point").1
    let hasTag : Ty := .record [] [Member.ofTy "tag" .unknown]
    (Ty.classRef "Point").eqv value = true ∧
      (workspace.isSubtype (.classRef "Point") hasTag).1 = false ∧
      (workspace.isSubtype value hasTag).1 = true := by
  intro workspace value hasTag
  obtain ⟨after, compared, -⟩ := exec_isSubtype_classRef true
  have hvalue : value = Point.value := classValue_fresh
  have by_value := isSubtype_value true workspace.startState
  rw [hvalue, isSubtype_eq, isSubtype_eq]
  exact ⟨rfl, congrArg Prod.fst compared, congrArg Prod.fst by_value⟩

end Workspace

end LuaTyping
