import LuaTyping.Proofs.Infer.Alike
import Mathlib.Data.List.Basic

/-!
# What a rule reads

The rules read a project in three ways: the files whose declarations they are asked for, the names
they note, and a few things without noting anything. This file goes through all of them and proves
that there is nothing else. Given two versions of a project that agree on some files and names, and
on what is read silently, every rule asked about one of the files has alike plans.

What is read silently is listed by `Snapshot.AgreeSilently`:

* the direct supertypes of every class, which decide whether a class is below another one and which
  supertypes a class value shows;
* the members that a bare name inside a method may refer to, through the owner of the method;
* whether the names that iterate over tables are declared.
-/

set_option autoImplicit false

namespace LuaTyping

/-- The two versions of a project agree on everything that is read without being noted. -/
structure Snapshot.AgreeSilently (files : FileId → Prop) (before after : Snapshot) : Prop where
  /-- Classes extend the same classes. -/
  supertypes : ∀ name, after.supertypes name = before.supertypes name
  /-- Inside a method of one of the files, names refer to the same members of its owner. -/
  methodMember : ∀ file decls scope owner name, files file → before.decls? file = some decls →
    methodOwner? decls scope = some owner →
    after.resolveMember file owner name = before.resolveMember file owner name
  /-- The names that iterate over tables are declared in both or in neither. -/
  iteration : ∀ name, (Infer.Rule.TableIteration.ofName? name).isSome →
    (after.globalDecls name).isEmpty = (before.globalDecls name).isEmpty

/-- The two versions of a project agree on the given files and names, and on everything that is read
without being noted. -/
structure Snapshot.Agree (files : FileId → Prop) (names : String → Prop)
    (before after : Snapshot) : Prop extends AgreeSilently files before after where
  file? : ∀ file, files file → after.file? file = before.file? file
  isClass : ∀ name, names name → after.isClass name = before.isClass name
  aliasDecls : ∀ name, names name → after.aliasDecls name = before.aliasDecls name
  globalDecls : ∀ name, names name → after.globalDecls name = before.globalDecls name
  classMembers : ∀ name, names name → after.classMembers name = before.classMembers name
  globalMembers : ∀ name, names name → after.globalMembers name = before.globalMembers name
  aliasEntry : ∀ name key, names name → key ∈ before.aliasDecls name →
    after.entry? key = before.entry? key
  classMemberEntry : ∀ name key, names name → key ∈ before.classMembers name →
    after.entry? key = before.entry? key
  globalMemberEntry : ∀ name key, names name → key ∈ before.globalMembers name →
    after.entry? key = before.entry? key
  tableMemberEntry : ∀ table key, files table.file → key ∈ before.tableMembers table →
    after.entry? key = before.entry? key
  /-- Globals are not bound in scopes, in either version. -/
  globalsBefore : ∀ name key entry, key ∈ before.globalDecls name → before.entry? key = some entry →
    entry.kind.isLexical = false
  globalsAfter : ∀ name key entry, key ∈ after.globalDecls name → after.entry? key = some entry →
    entry.kind.isLexical = false

namespace Infer

/-- An expression is one of a given file. -/
def Task.Within (files : FileId → Prop) : Task → Prop
  | .expr file _ _ => files file
  | _ => True

/-- A task asked for is one of the given files, if it is an expression. -/
def Goal.Within (files : FileId → Prop) : Goal → Prop
  | .task needed => needed.Within files
  | .resolve _ => True

/-- The same query over another version of the project. -/
def Context.anew (ctx : Context) (snapshot : Snapshot) : Context := { ctx with snapshot }

namespace Rule

variable {files : FileId → Prop} {names : String → Prop}

/-- The two rules are alike, where expressions are asked for in the given files only. -/
abbrev Alike {α : Type} (files : FileId → Prop) (names : String → Prop) (p q : Rule α) : Prop :=
  Plan.Alike names (Goal.Within files) p q

theorem alike_ask (goal : Goal) (h : goal.Within files) :
    Alike files names (ask goal) (ask goal) :=
  .question h

theorem alike_value {file : FileId} (h : files file) (node : NodeRef) :
    Alike files names (value file node) (value file node) :=
  (alike_ask (.expr file node none) h).bind fun _ => .pure _

theorem alike_declTypes (keys : List DeclKey) :
    Alike files names (declTypes keys) (declTypes keys) :=
  .mapM keys fun key _ => alike_ask (.decl key) trivial

/-! ## Reading entries -/

section Entries

variable {before after : Snapshot} {keys : List DeclKey}
  (same : ∀ key ∈ keys, after.entry? key = before.entry? key)
include same

theorem bestOf_congr : bestOf after keys = bestOf before keys := by
  have worth : keys.map (worthOf after) = keys.map (worthOf before) :=
    List.map_congr_left fun key mem => by rw [worthOf, worthOf, same key mem]
  rw [bestOf, bestOf, worth]
  exact List.filter_congr fun key mem => by rw [same key mem]

theorem groupMembers_congr : groupMembers after keys = groupMembers before keys :=
  List.foldl_ext _ _ _ fun groups key mem => by rw [same key mem]

end Entries

theorem mem_addToGroup {name : String} {worth : Nat} {key : DeclKey} {groups : List MemberGroup}
    {group : MemberGroup} (mem : group ∈ addToGroup name worth key groups) {found : DeclKey}
    (h : found ∈ group.keys) : found = key ∨ ∃ other ∈ groups, found ∈ other.keys := by
  induction groups with
  | nil =>
    simp only [addToGroup, List.mem_singleton] at mem
    subst mem
    exact .inl (List.mem_singleton.mp h)
  | cons first rest ih =>
    rw [addToGroup] at mem
    split at mem
    · split at mem
      · rcases List.mem_cons.mp mem with rfl | mem
        · exact .inl (List.mem_singleton.mp h)
        · exact .inr ⟨group, List.mem_cons_of_mem _ mem, h⟩
      · split at mem
        · rcases List.mem_cons.mp mem with rfl | mem
          · rcases List.mem_append.mp h with h | h
            · exact .inr ⟨first, List.mem_cons_self, h⟩
            · exact .inl (List.mem_singleton.mp h)
          · exact .inr ⟨group, List.mem_cons_of_mem _ mem, h⟩
        · exact .inr ⟨group, mem, h⟩
    · rcases List.mem_cons.mp mem with rfl | mem
      · exact .inr ⟨group, List.mem_cons_self, h⟩
      · rcases ih mem with same | ⟨other, other_mem, h⟩
        · exact .inl same
        · exact .inr ⟨other, List.mem_cons_of_mem _ other_mem, h⟩

theorem mem_groupMembers {snapshot : Snapshot} {keys : List DeclKey} {group : MemberGroup}
    (mem : group ∈ groupMembers snapshot keys) {found : DeclKey} (h : found ∈ group.keys) :
    found ∈ keys := by
  -- whatever one declaration does to the groups, it brings in no other declaration than itself
  have from_groups (step : List MemberGroup → DeclKey → List MemberGroup)
      (adds : ∀ groups key, ∀ group ∈ step groups key, found ∈ group.keys →
        found = key ∨ ∃ other ∈ groups, found ∈ other.keys)
      (keys : List DeclKey) (groups : List MemberGroup) :
      group ∈ keys.foldl step groups →
      found ∈ keys ∨ ∃ other ∈ groups, found ∈ other.keys := by
    induction keys generalizing groups with
    | nil => exact fun mem => .inr ⟨group, mem, h⟩
    | cons key rest ih =>
      intro mem
      rcases ih _ mem with inRest | ⟨other, other_mem, h⟩
      · exact .inl (List.mem_cons_of_mem key inRest)
      · rcases adds groups key other other_mem h with rfl | old
        · exact .inl List.mem_cons_self
        · exact .inr old
  refine (from_groups _ ?_ keys [] mem).resolve_right ?_
  · intro groups key other other_mem h
    split at other_mem
    · exact mem_addToGroup other_mem h
    · exact .inr ⟨other, other_mem, h⟩
  · rintro ⟨other, none_yet, -⟩
    cases none_yet

section Project

variable {ctx : Context} {after : Snapshot} (agree : Snapshot.Agree files names ctx.snapshot after)
include agree

/-! ## Members and classes -/

omit agree in
theorem alike_groupMember {group : MemberGroup}
    (same : ∀ key ∈ group.keys, after.entry? key = ctx.snapshot.entry? key) :
    Alike files names (groupMember ctx group) (groupMember (ctx.anew after) group) := by
  have head : group.keys.head?.bind after.entry? = group.keys.head?.bind ctx.snapshot.entry? := by
    cases first : group.keys.head? with
    | none => rfl
    | some key => exact same key (List.mem_of_head? first)
  have deprecated : (group.keys.any fun key => ((after.entry? key).map Entry.deprecated).getD false)
      = group.keys.any fun key => ((ctx.snapshot.entry? key).map Entry.deprecated).getD false := by
    rw [Bool.eq_iff_iff, List.any_eq_true, List.any_eq_true]
    exact exists_congr fun key => and_congr_right fun mem => by rw [same key mem]
  simp only [groupMember, Context.anew, head, deprecated]
  split
  · exact (alike_declTypes _).bind fun _ => .pure _
  · exact .pure none

omit agree in
theorem alike_memberList {keys : List DeclKey}
    (same : ∀ key ∈ keys, after.entry? key = ctx.snapshot.entry? key) :
    Alike files names (memberList ctx keys) (memberList (ctx.anew after) keys) := by
  simp only [memberList, Context.anew, groupMembers_congr same]
  refine Plan.Alike.bind (.mapM _ fun group mem => ?_) fun _ => .pure _
  exact alike_groupMember fun key h => same key (mem_groupMembers mem h)

theorem supertypes_eq : after.supertypes = ctx.snapshot.supertypes := funext agree.supertypes

theorem acyclicSupertypes_eq (name : String) :
    acyclicSupertypes after name = acyclicSupertypes ctx.snapshot name := by
  rw [acyclicSupertypes, acyclicSupertypes, supertypes_eq agree]

theorem alike_classValue {name : String} (h : names name) :
    Alike files names (classValue ctx name) (classValue (ctx.anew after) name) := by
  simp only [classValue, Context.anew, agree.classMembers name h, acyclicSupertypes_eq agree]
  refine Plan.Alike.bind ?_ fun _ => .pure _
  exact alike_memberList fun key mem => agree.classMemberEntry name key h mem

theorem alike_search (member : String) (chain : List String) :
    Alike files names (classMember.search ctx member chain)
      (classMember.search (ctx.anew after) member chain) := by
  induction chain with
  | nil => exact .pure _
  | cons name rest ih =>
    refine .noteName fun h => ?_
    have same := fun key => agree.classMemberEntry name key h
    have named : (after.classMembers name).filter (after.isNamed member)
        = (ctx.snapshot.classMembers name).filter (ctx.snapshot.isNamed member) := by
      rw [agree.classMembers name h]
      exact List.filter_congr fun key mem => by
        rw [Snapshot.isNamed, Snapshot.isNamed, same key mem]
    have best : bestOf after ((ctx.snapshot.classMembers name).filter (ctx.snapshot.isNamed member))
        = bestOf ctx.snapshot
            ((ctx.snapshot.classMembers name).filter (ctx.snapshot.isNamed member)) :=
      bestOf_congr fun key mem => same key (List.mem_filter.mp mem).1
    simp only [Context.anew, named]
    split
    · exact ih
    · rw [bestType, bestType, best]
      exact (alike_declTypes _).bind fun _ => .pure _

theorem alike_classMember (className member : String) :
    Alike files names (classMember ctx className member)
      (classMember (ctx.anew after) className member) := by
  have chain : after.classChain className = ctx.snapshot.classChain className := by
    rw [Snapshot.classChain, Snapshot.classChain, supertypes_eq agree]
  simp only [classMember, Context.anew, chain]
  exact alike_search agree member _

omit agree in
theorem alike_memberTypes (member : String) {bases : List Ty}
    (each : ∀ base ∈ bases,
      Alike files names (memberType ctx member base) (memberType (ctx.anew after) member base)) :
    Alike files names (memberTypes ctx member bases)
      (memberTypes (ctx.anew after) member bases) := by
  induction bases with
  | nil => exact .pure _
  | cons base rest ih =>
    obtain ⟨first, others⟩ := List.forall_mem_cons.mp each
    exact first.bind fun _ => (ih others).bind fun _ => .pure _

theorem alike_memberType (member : String) (base : Ty) :
    Alike files names (memberType ctx member base) (memberType (ctx.anew after) member base) := by
  induction base using Ty.induction_on_parts with
  | step base ih =>
    cases base with
    | named name =>
      rw [memberType, memberType]
      split
      · exact .pure _
      · exact alike_classMember agree name member
    | union alts => exact (alike_memberTypes member ih).bind fun _ => .pure _
    | _ => exact .pure _

omit agree in
theorem alike_indexedTypes (key : Ty) {bases : List Ty}
    (each : ∀ base ∈ bases,
      Alike files names (indexedType ctx key base) (indexedType (ctx.anew after) key base)) :
    Alike files names (indexedTypes ctx key bases) (indexedTypes (ctx.anew after) key bases) := by
  induction bases with
  | nil => exact .pure _
  | cons base rest ih =>
    obtain ⟨first, others⟩ := List.forall_mem_cons.mp each
    exact first.bind fun _ => (ih others).bind fun _ => .pure _

theorem alike_indexedType (key base : Ty) :
    Alike files names (indexedType ctx key base) (indexedType (ctx.anew after) key base) := by
  induction base using Ty.induction_on_parts with
  | step base ih =>
    cases base with
    | named | record =>
      unfold indexedType
      split
      · exact alike_memberType agree _ _
      · exact .pure _
    | union alts =>
      unfold indexedType
      split
      · exact alike_memberType agree _ _
      · exact (alike_indexedTypes key ih).bind fun _ => .pure _
    | _ => exact .pure _

theorem alike_projectUnion (tys : List Ty) :
    Alike files names (projectUnion ctx tys) (projectUnion (ctx.anew after) tys) :=
  alike_unionWith (supertypes_eq agree)
    (fun className member => (alike_classMember agree className member).bind fun _ => .pure _) tys

theorem alike_globalType (name : String) :
    Alike files names (globalType ctx name) (globalType (ctx.anew after) name) := by
  refine .noteName fun h => ?_
  simp only [Context.anew, agree.globalDecls name h]
  exact (alike_declTypes _).bind fun _ => .pure _

/-! ## Files and names -/

section File

variable {file : FileId} (h : files file)
include h

theorem tree?_eq : after.tree? file = ctx.snapshot.tree? file :=
  congrArg (Option.map IndexedFile.tree) (agree.file? file h)

theorem decls?_eq : after.decls? file = ctx.snapshot.decls? file :=
  congrArg (Option.map IndexedFile.decls) (agree.file? file h)

theorem form?_eq (node : NodeRef) : after.form? file node = ctx.snapshot.form? file node := by
  rw [Snapshot.form?, Snapshot.form?, tree?_eq agree h]

theorem startOf_eq (node : NodeRef) : after.startOf file node = ctx.snapshot.startOf file node := by
  rw [Snapshot.startOf, Snapshot.startOf, tree?_eq agree h]

omit h in
theorem entry?_eq {key : DeclKey} (h : files key.file) :
    after.entry? key = ctx.snapshot.entry? key := by
  rw [Snapshot.entry?, Snapshot.entry?, decls?_eq agree h]

omit h in
theorem tableMembers_eq {table : DeclKey} (h : files table.file) :
    after.tableMembers table = ctx.snapshot.tableMembers table := by
  simp only [Snapshot.tableMembers, agree.file? table.file h]

/-- A name of an agreed file refers to the same declarations, or to those of the global in both
versions. -/
theorem resolveName_cases (name : String) (pos : Nat) :
    after.resolveName file name pos = ctx.snapshot.resolveName file name pos ∨
    ctx.snapshot.resolveName file name pos
        = (ctx.snapshot.globalDecls name).take Limits.candidates ∧
      after.resolveName file name pos = (after.globalDecls name).take Limits.candidates := by
  rw [Snapshot.resolveName, Snapshot.resolveName, decls?_eq agree h]
  cases found : ctx.snapshot.decls? file with
  | none => exact .inl rfl
  | some decls =>
    dsimp only
    split
    · exact .inl rfl
    · cases owned : Snapshot.methodOwner? decls (decls.table.scopeAt pos) with
      | none => exact .inr ⟨rfl, rfl⟩
      | some owner =>
        simp only [agree.methodMember file decls _ owner name h found owned]
        split
        · exact .inr ⟨rfl, rfl⟩
        · exact .inl rfl

theorem isLexical_eq (keys : List DeclKey) :
    isLexical after file keys = isLexical ctx.snapshot file keys := by
  unfold isLexical
  split
  · rename_i key
    by_cases same : key.file = file
    · rw [entry?_eq agree (same.symm ▸ h)]
    · rw [beq_false_of_ne same, Bool.false_and, Bool.false_and]
  · rfl

end File

omit agree in
theorem not_isLexical_globals {snapshot : Snapshot} {name : String}
    (globals : ∀ key entry, key ∈ snapshot.globalDecls name → snapshot.entry? key = some entry →
      entry.kind.isLexical = false) (file : FileId) (count : Nat) :
    isLexical snapshot file ((snapshot.globalDecls name).take count) = false := by
  unfold isLexical
  split
  · rename_i key one
    have mem : key ∈ snapshot.globalDecls name :=
      List.mem_of_mem_take (one ▸ List.mem_singleton_self key)
    split
    · rename_i entry found
      rw [globals key entry mem found, Bool.and_false]
    · exact Bool.and_false _
  · rfl

/-! ## Calls -/

omit agree in
theorem alike_argumentTypes {file : FileId} (h : files file) (params given : List Ty)
    (args : List NodeRef) : Alike files names (argumentTypes file params given args)
      (argumentTypes file params given args) := by
  induction args generalizing given with
  | nil => exact .pure given
  | cons arg rest ih =>
    rw [argumentTypes]
    refine (alike_ask (.expr file arg _) h).bind fun ty => ?_
    split
    · exact .pure _
    · exact ih _

omit agree in
theorem alike_applyCalls (file : FileId) (self : List Ty) (args : List NodeRef) {callees : List Ty}
    (each : ∀ callee ∈ callees, Alike files names (applyCall ctx file self args callee)
      (applyCall (ctx.anew after) file self args callee)) :
    Alike files names (applyCalls ctx file self args callees)
      (applyCalls (ctx.anew after) file self args callees) := by
  induction callees with
  | nil => exact .pure _
  | cons callee rest ih =>
    obtain ⟨first, others⟩ := List.forall_mem_cons.mp each
    exact first.bind fun _ => (ih others).bind fun _ => .pure _

omit agree in
theorem alike_applyCall {file : FileId} (h : files file) (self : List Ty) (args : List NodeRef)
    (callee : Ty) : Alike files names (applyCall ctx file self args callee)
      (applyCall (ctx.anew after) file self args callee) := by
  induction callee using Ty.induction_on_parts with
  | step callee ih =>
    cases callee with
    | function params => exact (alike_argumentTypes h params self args).bind fun _ => .pure _
    | union alts => exact (alike_applyCalls file self args ih).bind fun _ => .pure _
    | _ => exact .pure _

section File

variable {file : FileId} (h : files file)
include h

theorem alike_calleeOf (callee : NodeRef) (method : Option String) :
    Alike files names (calleeOf ctx file callee method)
      (calleeOf (ctx.anew after) file callee method) := by
  unfold calleeOf
  simp only [Context.anew, form?_eq agree h]
  split
  · exact (alike_value h _).bind fun receiver =>
      (alike_memberType agree _ receiver).bind fun _ => .pure _
  · exact (alike_value h _).bind fun receiver =>
      (alike_memberType agree _ receiver).bind fun _ => .pure _
  · exact (alike_value h callee).bind fun _ => .pure _

theorem alike_callType (callee : NodeRef) (method : Option String) (args : List NodeRef) :
    Alike files names (callType ctx file callee method args)
      (callType (ctx.anew after) file callee method args) :=
  (alike_calleeOf agree h callee method).bind fun target =>
    (alike_applyCall h _ args target.ty).bind fun _ => .pure _

theorem alike_expectedArgument (arg : NodeRef) :
    Alike files names (expectedArgument ctx file arg)
      (expectedArgument (ctx.anew after) file arg) := by
  unfold expectedArgument
  simp only [Context.anew, tree?_eq agree h]
  split
  · exact .pure none
  · split
    · split
      · exact .pure none
      · refine (alike_value h _).bind fun receiver => ?_
        -- a method goes through its member first, and then both go on alike
        split
        case' h_1 => refine (alike_memberType agree _ receiver).bind fun _ => ?_
        all_goals
          refine (alike_ask (.resolve _) trivial).bind fun calleeTy => ?_
          split
          · exact .pure none
          · split
            · exact .pure none
            · refine .ite _ (fun _ => .pure _) fun _ => ?_
              refine Plan.Alike.bind (.mapM _ fun other _ => ?_) fun _ => .pure _
              exact .ite _ (fun _ => .pure _) fun _ => alike_value h other
    · exact .pure none

theorem alike_contextualParam (param : NodeRef) :
    Alike files names (contextualParam ctx file param)
      (contextualParam (ctx.anew after) file param) := by
  unfold contextualParam
  simp only [Context.anew, tree?_eq agree h]
  split
  · exact .pure none
  · split
    · split
      · exact .pure none
      · exact (alike_expectedArgument agree h _).bind fun _ => .pure _
    · exact .pure none

/-- Whether a name that iterates over tables is declared shows in an agreed file, too. -/
theorem tableIteration?_eq (expr : NodeRef) :
    tableIteration? after file expr = tableIteration? ctx.snapshot file expr := by
  have undeclared {name : String} {iteration : TableIteration}
      (found : TableIteration.ofName? name = some iteration) (pos : Nat) :
      (after.resolveName file name pos).isEmpty
        = (ctx.snapshot.resolveName file name pos).isEmpty := by
    rcases resolveName_cases agree h name pos with same | ⟨globals, globals'⟩
    · rw [same]
    · have taken (keys : List DeclKey) : (keys.take Limits.candidates).isEmpty = keys.isEmpty := by
        cases keys <;> rfl
      rw [globals, globals', taken, taken]
      exact agree.iteration name (found ▸ rfl)
  unfold tableIteration?
  simp only [form?_eq agree h, startOf_eq agree h]
  split
  · split
    · split
      · rename_i found
        rw [undeclared found]
      · rfl
    · rfl
  · rfl

theorem alike_iteratorType (expr : NodeRef) (index : Nat) :
    Alike files names (iteratorType ctx file expr index)
      (iteratorType (ctx.anew after) file expr index) := by
  unfold iteratorType
  simp only [Context.anew, tableIteration?_eq agree h]
  split
  · split
    · exact .pure _
    · exact (alike_value h _).bind fun _ => .pure _
  · refine (alike_value h expr).bind fun ty => ?_
    split <;> exact .pure _

/-! ## Expressions -/

theorem alike_nameType (node : NodeRef) (name : String) :
    Alike files names (nameType ctx file node name) (nameType (ctx.anew after) file node name) := by
  unfold nameType
  simp only [Context.anew, startOf_eq agree h]
  rcases resolveName_cases agree h name (ctx.snapshot.startOf file node) with
    same | ⟨globals, globals'⟩
  · have found : Alike files names
        (if (ctx.snapshot.resolveName file name (ctx.snapshot.startOf file node)).isEmpty then
          pure .unknown
        else do
          projectUnion ctx
            (← declTypes (ctx.snapshot.resolveName file name (ctx.snapshot.startOf file node))))
        (if (ctx.snapshot.resolveName file name (ctx.snapshot.startOf file node)).isEmpty then
          pure .unknown
        else do
          projectUnion (ctx.anew after)
            (← declTypes (ctx.snapshot.resolveName file name (ctx.snapshot.startOf file node)))) :=
      .ite _ (fun _ => .pure _) fun _ =>
        (alike_declTypes _).bind fun tys => alike_projectUnion agree tys
    rw [same, isLexical_eq agree h]
    exact .ite _ (fun _ => .noteName fun _ => found) fun _ => found
  · -- a global is never lexical, so its name is noted before its declarations matter
    have noted := not_isLexical_globals (agree.globalsBefore name) file Limits.candidates
    have noted' := not_isLexical_globals (agree.globalsAfter name) file Limits.candidates
    rw [globals, globals', noted, noted']
    refine .noteName fun h => ?_
    rw [agree.globalDecls name h]
    exact .ite _ (fun _ => .pure _) fun _ =>
      (alike_declTypes _).bind fun tys => alike_projectUnion agree tys

theorem alike_indexType (base : NodeRef) (key : IndexKey) :
    Alike files names (indexType ctx file base key) (indexType (ctx.anew after) file base key) := by
  refine (alike_value h base).bind fun baseTy => ?_
  cases key with
  | named member => exact alike_memberType agree member baseTy
  | expr key => exact (alike_value h key).bind fun keyTy => alike_indexedType agree keyTy baseTy

omit agree in
theorem alike_binaryType (op : BinaryOp) (lhs rhs : NodeRef) :
    Alike files names (binaryType file op lhs rhs) (binaryType file op lhs rhs) := by
  unfold binaryType
  split
  · exact alike_value h rhs
  · exact (alike_value h lhs).bind fun _ => (alike_value h rhs).bind fun _ => .pure _
  · exact .pure _
  · refine .ite _ (fun _ => .pure _) fun _ => ?_
    exact (alike_value h lhs).bind fun _ => (alike_value h rhs).bind fun _ => .pure _

omit agree in
theorem alike_unaryType (op : UnaryOp) (operand : NodeRef) :
    Alike files names (unaryType file op operand) (unaryType file op operand) := by
  cases op with
  | not | len => exact .pure _
  | neg | bitNot => exact (alike_value h operand).bind fun _ => .pure _

omit agree in
theorem alike_addField (tree : Tree) (decls : FileDecls) (parts : TableParts) (field : NodeRef) :
    Alike files names (addField file tree decls parts field)
      (addField file tree decls parts field) := by
  unfold addField
  split
  · split
    · exact (alike_ask (.decl _) trivial).bind fun _ => .pure _
    · exact (alike_value h _).bind fun _ => .pure _
  · exact (alike_value h _).bind fun _ => .pure _
  · exact .pure _

theorem alike_tableType (node : NodeRef) :
    Alike files names (tableType ctx file node) (tableType (ctx.anew after) file node) := by
  unfold tableType
  simp only [Context.anew, agree.file? file h]
  split
  · exact .pure _
  · split
    · exact Plan.Alike.bind
        (.foldlM _ (fun parts field _ => alike_addField h _ _ parts field) _) fun _ => .pure _
    · exact .pure _

omit agree in
theorem alike_returnedType (exprs : List NodeRef) :
    Alike files names (returnedType file exprs) (returnedType file exprs) := by
  unfold returnedType
  split
  · exact .pure _
  · exact alike_ask (.expr file _ none) h
  · exact Plan.Alike.bind (.mapM _ fun expr _ => alike_value h expr) fun _ => .pure _

omit agree in
theorem alike_returnsType (tree : Tree) (info : FunctionInfo) :
    Alike files names (returnsType file tree info) (returnsType file tree info) := by
  refine Plan.Alike.bind (.mapM _ fun stmt _ => ?_) fun _ => .pure _
  split
  · exact (alike_returnedType h _).map some
  · exact .pure none

omit agree h in
theorem alike_paramTypes (file : FileId) (expected : List Ty) (params : List Nat) :
    Alike files names (paramTypes file expected params) (paramTypes file expected params) :=
  .mapM _ fun _ _ => (alike_ask (.decl _) trivial).bind fun _ => .pure _

theorem alike_closureType (node : NodeRef) (expected : Option Ty) :
    Alike files names (closureType ctx file node expected)
      (closureType (ctx.anew after) file node expected) := by
  unfold closureType
  simp only [Context.anew, agree.file? file h]
  split
  · exact .pure _
  · split
    · exact .pure _
    · refine (alike_paramTypes file _ _).bind fun params => ?_
      split
      · exact (alike_ask (.resolve _) trivial).bind fun _ => .pure _
      · exact (alike_returnsType h _ _).bind fun _ => .pure _

theorem alike_formType (node : NodeRef) (expected : Option Ty) (form : Form) :
    Alike files names (formType ctx file node expected form)
      (formType (ctx.anew after) file node expected form) := by
  unfold formType
  split
  · exact .pure _
  · exact .pure _
  · exact .pure _
  · exact .pure _
  · exact alike_nameType agree h node _
  · exact alike_indexType agree h _ _
  · exact alike_callType agree h _ _ _
  · exact alike_closureType agree h node expected
  · exact alike_tableType agree h node
  · exact alike_value h _
  · exact alike_binaryType h _ _ _
  · exact alike_unaryType h _ _
  · exact alike_value h _
  · exact .pure _

theorem alike_exprType (node : NodeRef) (expected : Option Ty) :
    Alike files names (exprType ctx file node expected)
      (exprType (ctx.anew after) file node expected) := by
  unfold exprType
  simp only [Context.anew, form?_eq agree h]
  split
  · exact alike_formType agree h node expected _
  · exact .pure _

end File

/-! ## Declarations -/

omit agree in
theorem alike_withOverloads (entry : Entry) (ty : Ty) :
    Alike files names (withOverloads entry ty) (withOverloads entry ty) := by
  refine .ite _ (fun _ => .pure ty) fun _ => ?_
  exact Plan.Alike.bind (.mapM _ fun _ _ => alike_ask (.resolve _) trivial) fun _ => .pure _

section Declaration

variable {key : DeclKey} (h : files key.file) (entry : Entry)
include h

theorem alike_parameterType :
    Alike files names (parameterType ctx key entry) (parameterType (ctx.anew after) key entry) := by
  unfold parameterType
  split
  · exact alike_ask (.decl _) trivial
  · exact alike_globalType agree _
  · exact alike_ask (.classValue _) trivial
  · exact (alike_contextualParam agree h _).bind fun _ => .pure _

theorem alike_tableDeclType (table : NodeRef) :
    Alike files names (tableDeclType ctx key entry table)
      (tableDeclType (ctx.anew after) key entry table) := by
  refine (alike_tableType agree h table).bind fun literal => ?_
  unfold attachedMembers
  by_cases isGlobal : entry.kind = .global
  · rw [if_pos isGlobal, if_pos isGlobal]
    refine .noteName fun named => ?_
    simp only [Context.anew, agree.globalMembers _ named]
    split
    · exact .pure literal
    · exact (alike_memberList fun key mem => agree.globalMemberEntry _ key named mem).bind
        fun _ => .pure _
  · -- the members of a local table are declared in its own file
    rw [if_neg isGlobal, if_neg isGlobal]
    simp only [pure_bind, Context.anew, tableMembers_eq agree h]
    split
    · exact .pure literal
    · exact (alike_memberList fun other mem => agree.tableMemberEntry key other h mem).bind
        fun _ => .pure _

theorem alike_initializerType :
    Alike files names (initializerType ctx key entry)
      (initializerType (ctx.anew after) key entry) := by
  unfold initializerType
  split
  · exact .pure _
  · split
    · exact .pure _
    · exact alike_iteratorType agree h _ _
    · refine .ite _ (fun _ => alike_closureType agree h _ none) fun _ => ?_
      refine .ite _ (fun _ => alike_tableDeclType agree h entry _) fun _ => ?_
      exact (alike_ask (.expr key.file _ none) h).bind fun _ => .pure _

theorem alike_variableType :
    Alike files names (variableType ctx key entry) (variableType (ctx.anew after) key entry) := by
  unfold variableType
  split
  · exact (alike_ask (.resolve _) trivial).bind fun _ => alike_withOverloads entry _
  · refine .ite _ (fun _ => ?_) fun _ => ?_
    · exact (alike_parameterType agree h entry).bind fun _ => alike_withOverloads entry _
    · exact (alike_initializerType agree h entry).bind fun _ => alike_withOverloads entry _

omit entry in
theorem alike_declType :
    Alike files names (declType ctx key) (declType (ctx.anew after) key) := by
  unfold declType
  simp only [Context.anew, entry?_eq agree h]
  split
  · exact .pure _
  · split
    · exact alike_ask (.classValue _) trivial
    · split
      · exact alike_ask (.resolve _) trivial
      · exact .pure _
    · exact alike_variableType agree h _

end Declaration

end Project

end Rule

section Goals

variable {files : FileId → Prop} {names : String → Prop} {ctx : Context} {after : Snapshot}
  (agree : Snapshot.Agree files names ctx.snapshot after)
include agree

theorem alike_expandRef (name : String) {args args' : Plan Task (List Ty)}
    (alike : args.Alike names (Task.Within files) args') :
    (expandRef ctx name args).Alike names (Task.Within files)
      (expandRef (ctx.anew after) name args') := by
  unfold expandRef
  refine .ite _ (fun _ => .pure _) fun _ => .noteName fun h => ?_
  simp only [Context.anew, agree.isClass name h, agree.aliasDecls name h, agree.globalDecls name h]
  refine .ite _ (fun _ => .question trivial) fun _ => ?_
  split
  · rename_i key rest found
    rw [agree.aliasEntry name key h (found ▸ List.mem_cons_self)]
    split
    · exact .pure _
    · exact alike.bind fun _ => .question trivial
  · refine .ite _ (fun _ => .noteName fun _ => ?_) fun _ => .pure _
    exact Plan.Alike.bind (.mapM _ fun _ _ => .question trivial) fun _ => .pure _

theorem Goal.alike_plan {goal : Goal} (h : goal.Within files) :
    (goal.plan ctx).Alike names (Task.Within files) (goal.plan (ctx.anew after)) := by
  cases goal with
  | task needed => exact .question h
  | resolve ty => exact alike_expandM (fun name _ _ => alike_expandRef agree name) ty

end Goals

end Infer

end LuaTyping
