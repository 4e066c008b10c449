import LuaTyping.Proofs.Infer.Contracts
import LuaTyping.Proofs.Infer.Dependencies
import LuaTyping.Proofs.Ty.Resolved

/-!
# Inference gives out no references

References that are still to be looked up stand in every declaration: in documented types, in
overloads, in return types, in the fields of classes. Inference looks them up before a type leaves
it or is kept. This file proves it for every rule and from that for every goal, whatever is cut
short or refused on the way.

What a rule yields if its questions are answered with resolved types is proved rule by rule, from
the parts of the rule. Together with what is kept this makes a contract, which every query keeps to.

Only one question needs care. An expression may be asked for with a type that is expected of it, and
a function expression takes over the expected types of its parameters; so what is expected has to be
resolved, too.
-/

set_option autoImplicit false

namespace LuaTyping

/-- Every kept type is resolved. -/
def Cache.Resolved (cache : Cache) : Prop :=
  ∀ (key : CacheKey) (ty : Ty), cache.entries[key]? = some ty → ty.Resolved

namespace Infer

namespace Plan

variable {κ : Type}

theorem follows_yields (answers : κ → Ty → Prop) :
    Follows (Plan κ) fun good plan => plan.Yields answers good where
  pure := Yields.pure
  bind := Yields.bind
  map := Yields.map
  weaken := Yields.weaken
  any := Yields.any

end Plan

/-- What is expected of an expression is resolved. -/
def Task.Resolved : Task → Prop
  | .expr _ _ expected => ∀ ty, expected = some ty → ty.Resolved
  | _ => True

/-- What is expected of an expression is resolved. A type to be looked up may be any. -/
def Goal.Resolved : Goal → Prop
  | .task needed => needed.Resolved
  | .resolve _ => True

namespace Rule

/-- The rule gives a good answer if its goals are solved with resolved types. -/
abbrev Yields {α : Type} (good : α → Prop) (rule : Rule α) : Prop :=
  Plan.Yields (fun goal ty => goal.Resolved → ty.Resolved) good rule

/-- All types of a list are resolved. -/
abbrev AllResolved (tys : List Ty) : Prop := ∀ ty ∈ tys, ty.Resolved

/-- The types of all members are resolved. -/
abbrev MembersResolved (members : List (Member Ty)) : Prop := ∀ member ∈ members, member.ty.Resolved

/-! ## Questions -/

theorem yields_ask (goal : Goal) (h : goal.Resolved) : Yields Ty.Resolved (ask goal) :=
  fun _ answered => answered h

theorem yields_value (file : FileId) (node : NodeRef) : Yields Ty.Resolved (value file node) :=
  (yields_ask (.expr file node none) nofun).bind fun _ resolved => resolved.firstValue

theorem yields_declTypes (keys : List DeclKey) : Yields AllResolved (declTypes keys) :=
  .mapM Ty.Resolved keys fun key _ => yields_ask (.decl key) trivial

theorem yields_declUnion (keys : List DeclKey) :
    Yields Ty.Resolved (do pure (Ty.unionOf (← declTypes keys))) :=
  (yields_declTypes keys).bind fun _ resolved => Ty.resolved_unionOf resolved

variable (ctx : Context)

/-! ## Members and classes -/

theorem yields_search (member : String) (chain : List String) :
    Yields Ty.Resolved (classMember.search ctx member chain) := by
  induction chain with
  | nil => exact .pure Ty.resolved_unknown
  | cons name rest ih =>
    refine (Plan.Yields.any (note name)).bind fun _ _ => ?_
    split
    · exact ih
    · exact yields_declUnion _

theorem yields_classMember (className member : String) :
    Yields Ty.Resolved (classMember ctx className member) :=
  yields_search ctx member _

mutual

theorem yields_memberType (member : String) : ∀ {base : Ty}, base.Resolved →
    Yields Ty.Resolved (memberType ctx member base)
  | .named name _ _, h => by
    rw [memberType]
    split
    · rename_i found hfound
      exact .pure (Ty.resolved_named.mp h found (List.mem_of_find?_eq_some hfound))
    · exact yields_classMember ctx name member
  | .record _ members, h => by
    rw [memberType]
    refine .pure (.getD (fun ty hty => ?_) Ty.resolved_unknown)
    obtain ⟨found, hfound, rfl⟩ := Option.map_eq_some_iff.mp hty
    exact Ty.resolved_record.mp h found (List.mem_of_find?_eq_some hfound)
  | .union _, h => by
    rw [memberType]
    refine (yields_memberTypes member (Ty.resolved_union.mp h)).bind fun tys resolved => ?_
    exact .pure (Ty.resolved_unionOf resolved)
  | .unknown, _ | .nil, _ | .boolean, _ | .number, _ | .string, _ | .literal _, _ | .generic _, _
  | .aliasRef _ _, _ | .array _, _ | .tuple _, _ | .function _ _ _ _, _ =>
    .pure Ty.resolved_unknown
termination_by structural base => base

theorem yields_memberTypes (member : String) : ∀ {bases : List Ty}, AllResolved bases →
    Yields AllResolved (memberTypes ctx member bases)
  | [], _ => .pure nofun
  | _ :: _, h => by
    rw [memberTypes]
    obtain ⟨first, rest⟩ := List.forall_mem_cons.mp h
    refine (yields_memberType member first).bind fun ty hty => ?_
    refine (yields_memberTypes member rest).bind fun tys htys => ?_
    exact .pure (List.forall_mem_cons.mpr ⟨hty, htys⟩)
termination_by structural bases => bases

end

mutual

theorem yields_indexedType (key : Ty) : ∀ {base : Ty}, base.Resolved →
    Yields Ty.Resolved (indexedType ctx key base)
  | .array _, h => by
    rw [indexedType]
    refine .pure ?_
    split
    · exact Ty.resolved_array.mp h
    · rfl
  | .tuple _, h => by
    rw [indexedType]
    refine .pure ?_
    split
    · exact Ty.resolved_unionOf (Ty.resolved_tuple.mp h)
    · rfl
  | .named _ _ _, h => by
    unfold indexedType
    split
    · exact yields_memberType ctx _ h
    · exact .pure Ty.resolved_unknown
  | .record _ _, h => by
    unfold indexedType
    split
    · exact yields_memberType ctx _ h
    · exact .pure Ty.resolved_unknown
  | .union _, h => by
    unfold indexedType
    split
    · exact yields_memberType ctx _ h
    · refine (yields_indexedTypes key (Ty.resolved_union.mp h)).bind fun tys resolved => ?_
      exact .pure (Ty.resolved_unionOf resolved)
  | .unknown, _ | .nil, _ | .boolean, _ | .number, _ | .string, _ | .literal _, _ | .generic _, _
  | .aliasRef _ _, _ | .function _ _ _ _, _ => .pure Ty.resolved_unknown
termination_by structural base => base

theorem yields_indexedTypes (key : Ty) : ∀ {bases : List Ty}, AllResolved bases →
    Yields AllResolved (indexedTypes ctx key bases)
  | [], _ => .pure nofun
  | _ :: _, h => by
    rw [indexedTypes]
    obtain ⟨first, rest⟩ := List.forall_mem_cons.mp h
    refine (yields_indexedType key first).bind fun ty hty => ?_
    refine (yields_indexedTypes key rest).bind fun tys htys => ?_
    exact .pure (List.forall_mem_cons.mpr ⟨hty, htys⟩)
termination_by structural bases => bases

end

theorem yields_memberList (keys : List DeclKey) :
    Yields MembersResolved (memberList ctx keys) := by
  have grouped (group : MemberGroup) :
      Yields (fun member => ∀ found, member = some found → found.ty.Resolved)
        (groupMember ctx group) := by
    unfold groupMember
    split
    · refine (yields_declTypes _).bind fun tys resolved => .pure fun found hfound => ?_
      cases hfound
      exact Ty.resolved_unionOf resolved
    · exact .pure nofun
  refine (Plan.Yields.mapM _ _ fun group _ => grouped group).bind fun members resolved => .pure ?_
  intro member mem
  obtain ⟨found, found_mem, hfound⟩ := List.mem_filterMap.mp mem
  exact resolved found found_mem member hfound

theorem yields_classValue (name : String) : Yields Ty.Resolved (classValue ctx name) :=
  (yields_memberList ctx _).bind fun _ resolved => .pure (Ty.resolved_named.mpr resolved)

theorem yields_projectUnion {tys : List Ty} (h : AllResolved tys) :
    Yields Ty.Resolved (projectUnion ctx tys) :=
  Ty.holds_unionWith (Plan.follows_yields _) (resolver ctx) h

theorem yields_globalType (name : String) : Yields Ty.Resolved (globalType ctx name) :=
  (Plan.Yields.any _).bind fun _ _ => yields_declUnion _

/-! ## Calls -/

theorem resolved_eraseUnbound (options : Options) (generics : List String) {ty : Ty}
    (h : ty.Resolved) : (eraseUnbound options generics ty).Resolved := by
  unfold eraseUnbound
  split
  · exact h.eraseOnly generics
  · exact h.eraseGenerics

theorem resolved_returnType (options : Options) {params : List Ty} {ret : Ty} (h : ret.Resolved)
    (generics : List String) {args : List Ty} (hargs : AllResolved args) :
    (returnType options params ret generics args).Resolved := by
  have bound : (if generics.isEmpty || !options.genericsEnabled then ret
      else ret.instantiate (Bindings.infer generics params args)).Resolved := by
    split
    · exact h
    · exact h.instantiate (Bindings.resolved_infer generics params hargs)
  exact resolved_eraseUnbound options generics bound

theorem yields_argumentTypes (file : FileId) {params given : List Ty} (hparams : AllResolved params)
    (hgiven : AllResolved given) (args : List NodeRef) :
    Yields AllResolved (argumentTypes file params given args) := by
  induction args generalizing given with
  | nil => exact .pure hgiven
  | cons arg rest ih =>
    rw [argumentTypes]
    have expected : Goal.Resolved (.expr file arg params[given.length]?) :=
      fun ty at_index => hparams ty (List.mem_of_getElem? at_index)
    refine (yields_ask _ expected).bind fun ty resolved => ?_
    split
    · exact .pure (List.forall_mem_append.mpr ⟨hgiven, Ty.resolved_tuple.mp resolved⟩)
    · refine ih (List.forall_mem_append.mpr ⟨hgiven, ?_⟩)
      exact List.forall_mem_singleton.mpr resolved.firstValue

mutual

theorem yields_applyCall (file : FileId) {self : List Ty} (hself : AllResolved self)
    (args : List NodeRef) : ∀ {callee : Ty}, callee.Resolved →
    Yields Ty.Resolved (applyCall ctx file self args callee)
  | .function _ _ _ generics, h => by
    rw [applyCall]
    obtain ⟨params, ret⟩ := Ty.resolved_function.mp h
    refine (yields_argumentTypes file params hself args).bind fun argTypes hargs => ?_
    exact .pure (resolved_returnType ctx.options ret generics hargs)
  | .named _ _ _, h => .pure h
  | .union _, h => by
    rw [applyCall]
    refine (yields_applyCalls file hself args (Ty.resolved_union.mp h)).bind fun tys resolved => ?_
    exact .pure (Ty.resolved_unionOf resolved)
  | .unknown, _ | .nil, _ | .boolean, _ | .number, _ | .string, _ | .literal _, _ | .generic _, _
  | .aliasRef _ _, _ | .array _, _ | .tuple _, _ | .record _ _, _ => .pure Ty.resolved_unknown
termination_by structural callee => callee

theorem yields_applyCalls (file : FileId) {self : List Ty} (hself : AllResolved self)
    (args : List NodeRef) : ∀ {callees : List Ty}, AllResolved callees →
    Yields AllResolved (applyCalls ctx file self args callees)
  | [], _ => .pure nofun
  | _ :: _, h => by
    rw [applyCalls]
    obtain ⟨first, rest⟩ := List.forall_mem_cons.mp h
    refine (yields_applyCall file hself args first).bind fun ty hty => ?_
    refine (yields_applyCalls file hself args rest).bind fun tys htys => ?_
    exact .pure (List.forall_mem_cons.mpr ⟨hty, htys⟩)
termination_by structural callees => callees

end

/-- What is called is resolved, and so is the receiver it was reached through. -/
structure CalleeResolved (target : Callee) : Prop where
  ty : target.ty.Resolved
  receiver : ∀ receiver member, target.receiver = some (receiver, member) → receiver.Resolved

theorem yields_calleeOf (file : FileId) (callee : NodeRef) (method : Option String) :
    Yields CalleeResolved (calleeOf ctx file callee method) := by
  have member (base : NodeRef) (member : String) :
      Yields CalleeResolved (do
        let receiver ← value file base
        pure ⟨← memberType ctx member receiver, some (receiver, member)⟩) := by
    refine (yields_value file base).bind fun receiver hreceiver => ?_
    refine (yields_memberType ctx member hreceiver).bind fun ty hty => .pure ⟨hty, ?_⟩
    intro _ _ same
    cases same
    exact hreceiver
  unfold calleeOf
  split
  · exact member _ _
  · exact member _ _
  · exact (yields_value file callee).bind fun ty hty => .pure ⟨hty, nofun⟩

theorem yields_callType (file : FileId) (callee : NodeRef) (method : Option String)
    (args : List NodeRef) : Yields Ty.Resolved (callType ctx file callee method args) := by
  refine (yields_calleeOf ctx file callee method).bind fun target htarget => ?_
  refine (yields_applyCall ctx file ?_ args htarget.ty).bind fun result hresult => .pure ?_
  · split
    · rename_i receiver member reached
      exact List.forall_mem_singleton.mpr (htarget.receiver receiver member reached)
    · exact nofun
  · refine .getD (fun made hmade => ?_) hresult
    unfold constructed? at hmade
    split at hmade
    · rename_i reached
      split at hmade
      · cases hmade
        exact htarget.receiver _ _ reached
      · cases hmade
    · cases hmade

/-- An expected type, if there is one, is resolved. -/
abbrev OptionResolved (expected : Option Ty) : Prop := ∀ ty, expected = some ty → ty.Resolved

theorem optionResolved_some {ty : Ty} (h : ty.Resolved) : OptionResolved (some ty) := by
  intro found hfound
  cases hfound
  exact h

theorem yields_expectedArgument (file : FileId) (arg : NodeRef) :
    Yields OptionResolved (expectedArgument ctx file arg) := by
  unfold expectedArgument
  split
  · exact .pure nofun
  split
  case h_2 => exact .pure nofun
  split
  · exact .pure nofun
  refine (yields_value file _).bind fun receiver hreceiver => ?_
  -- a method goes through its member first, and then both go on alike
  dsimp only
  split
  case' h_1 => refine (yields_memberType ctx _ hreceiver).bind fun calleeTy _ => ?_
  all_goals
    refine (yields_ask (.resolve _) trivial).bind fun callee hcallee => ?_
    split
    · exact .pure nofun
    rename_i firstFunction
    have hparams := hcallee.firstFunction? firstFunction
    split
    · exact .pure nofun
    rename_i at_index
    have hparam := hparams _ (List.mem_of_getElem? at_index)
    refine .ite (.pure (optionResolved_some hparam)) ?_
    refine (Plan.Yields.mapM Ty.Resolved _ fun other _ =>
      .ite (.pure Ty.resolved_unknown) (yields_value file other)).bind fun others hothers => ?_
    refine .pure (optionResolved_some (resolved_eraseUnbound _ _ (hparam.instantiate ?_)))
    split
    · refine Bindings.resolved_infer _ _ ?_
      simpa [hreceiver] using hothers
    · exact Bindings.resolved_empty

theorem yields_contextualParam (file : FileId) (param : NodeRef) :
    Yields OptionResolved (contextualParam ctx file param) := by
  unfold contextualParam
  split
  · exact .pure nofun
  dsimp only
  split
  case h_2 => exact .pure nofun
  split
  · exact .pure nofun
  refine (yields_expectedArgument ctx file _).bind fun expected hexpected => .pure ?_
  intro ty hty
  obtain ⟨found, -⟩ := Option.filter_eq_some_iff.mp hty
  obtain ⟨params, hparams, at_index⟩ := Option.bind_eq_some_iff.mp found
  obtain ⟨function, hfunction, hparams⟩ := Option.bind_eq_some_iff.mp hparams
  exact (hexpected function hfunction).params? hparams ty (List.mem_of_getElem? at_index)

theorem resolved_elementType {ty : Ty} (h : ty.Resolved) : (elementType ty).Resolved := by
  cases ty with
  | array element => exact Ty.resolved_array.mp h
  | tuple elements => exact Ty.resolved_unionOf (Ty.resolved_tuple.mp h)
  | record supers members =>
    refine Ty.resolved_unionOf fun ty mem => ?_
    obtain ⟨member, member_mem, rfl⟩ := List.mem_map.mp mem
    exact Ty.resolved_record.mp h member member_mem
  | _ => rfl

theorem resolved_loopVariable (iteration : TableIteration) {table : Ty} (h : table.Resolved)
    (index : Nat) : (iteration.variableType table index).Resolved := by
  unfold TableIteration.variableType
  split
  · rfl
  · split
    · exact Ty.resolved_array.mp h
    · rfl
  · split <;> rfl
  · exact resolved_elementType h
  · rfl

theorem yields_iteratorType (file : FileId) (expr : NodeRef) (index : Nat) :
    Yields Ty.Resolved (iteratorType ctx file expr index) := by
  unfold iteratorType
  split
  · split
    · exact .pure Ty.resolved_unknown
    · refine (yields_value file _).bind fun table htable => ?_
      exact .pure (resolved_loopVariable _ htable index)
  · refine (yields_value file expr).bind fun ty hty => ?_
    split
    · exact .pure ((Ty.resolved_function.mp hty).2.nthValue index)
    · exact .pure Ty.resolved_unknown

/-! ## Expressions -/

theorem resolved_arithmetic (left right : Ty) : (arithmetic left right).Resolved := by
  unfold arithmetic
  split <;> rfl

theorem yields_nameType (file : FileId) (node : NodeRef) (name : String) :
    Yields Ty.Resolved (nameType ctx file node name) := by
  have found (keys : List DeclKey) : Yields Ty.Resolved (do
      if keys.isEmpty then pure .unknown else projectUnion ctx (← declTypes keys)) :=
    .ite (.pure Ty.resolved_unknown)
      ((yields_declTypes keys).bind fun tys resolved => yields_projectUnion ctx resolved)
  unfold nameType
  dsimp only
  split
  · exact (Plan.Yields.any (note name)).bind fun _ _ => found _
  · exact found _

theorem yields_indexType (file : FileId) (base : NodeRef) (key : IndexKey) :
    Yields Ty.Resolved (indexType ctx file base key) := by
  refine (yields_value file base).bind fun baseTy hbase => ?_
  cases key with
  | named member => exact yields_memberType ctx member hbase
  | expr key => exact (yields_value file key).bind fun keyTy _ => yields_indexedType ctx keyTy hbase

theorem yields_binaryType (file : FileId) (op : BinaryOp) (lhs rhs : NodeRef) :
    Yields Ty.Resolved (binaryType file op lhs rhs) := by
  unfold binaryType
  split
  · exact yields_value file rhs
  · refine (yields_value file lhs).bind fun left hleft => ?_
    refine (yields_value file rhs).bind fun right hright => .pure (Ty.resolved_unionOf ?_)
    exact List.forall_mem_cons.mpr ⟨hleft.withoutNil, List.forall_mem_singleton.mpr hright⟩
  · exact .pure Ty.resolved_string
  · refine .ite (.pure Ty.resolved_boolean) ?_
    refine (yields_value file lhs).bind fun left _ => ?_
    exact (yields_value file rhs).bind fun right _ => .pure (resolved_arithmetic left right)

theorem yields_unaryType (file : FileId) (op : UnaryOp) (operand : NodeRef) :
    Yields Ty.Resolved (unaryType file op operand) := by
  cases op with
  | not => exact .pure Ty.resolved_boolean
  | len => exact .pure Ty.resolved_number
  | neg | bitNot =>
    exact (yields_value file operand).bind fun ty _ => .pure (resolved_arithmetic ty .number)

/-- Everything in the parts of a table constructor is resolved. -/
structure PartsResolved (parts : TableParts) : Prop where
  members : MembersResolved parts.members
  items : AllResolved parts.items

theorem yields_addField (file : FileId) (tree : Tree) (decls : FileDecls) {parts : TableParts}
    (h : PartsResolved parts) (field : NodeRef) :
    Yields PartsResolved (addField file tree decls parts field) := by
  have put (name : String) (ty : Ty) (hty : ty.Resolved) : PartsResolved
      { parts with
        members := putMember parts.members
          { Member.ofTy name ty with site := some ⟨file, tree.span field⟩ } } := by
    refine ⟨fun member mem => ?_, h.items⟩
    rcases mem_putMember mem with rfl | mem
    · exact hty
    · exact h.members member mem
  unfold addField
  split
  · split
    · exact (yields_ask (.decl _) trivial).bind fun ty hty => .pure (put _ ty hty)
    · exact (yields_value file _).bind fun ty hty => .pure (put _ ty hty)
  · refine (yields_value file _).bind fun ty hty => .pure ⟨h.members, ?_⟩
    exact List.forall_mem_append.mpr ⟨h.items, List.forall_mem_singleton.mpr hty.widen⟩
  · exact .pure h

theorem yields_tableType (file : FileId) (node : NodeRef) :
    Yields Ty.Resolved (tableType ctx file node) := by
  unfold tableType
  split
  · exact .pure Ty.resolved_unknown
  split
  · have none : PartsResolved ⟨[], []⟩ := by constructor <;> exact List.forall_mem_nil _
    refine (Plan.Yields.foldlM _ (fun parts field h => yields_addField file _ _ h field) none).bind
      fun parts h => .pure ?_
    split
    · exact Ty.resolved_array.mpr (Ty.resolved_unionOf h.items)
    · exact Ty.resolved_record.mpr h.members
  · exact .pure Ty.resolved_unknown

theorem yields_returnedType (file : FileId) (exprs : List NodeRef) :
    Yields Ty.Resolved (returnedType file exprs) := by
  unfold returnedType
  split
  · exact .pure Ty.resolved_nil
  · exact yields_ask (.expr file _ none) nofun
  · refine (Plan.Yields.mapM Ty.Resolved _ fun expr _ => yields_value file expr).bind
      fun tys resolved => ?_
    exact .pure (Ty.resolved_tuple.mpr resolved)

theorem yields_returnsType (file : FileId) (tree : Tree) (info : FunctionInfo) :
    Yields Ty.Resolved (returnsType file tree info) := by
  refine (Plan.Yields.mapM OptionResolved _ fun stmt _ => ?_).bind
    fun types resolved => .pure (Ty.resolved_unionOf ?_)
  · split
    · refine (yields_returnedType file _).map fun ty hty found hfound => ?_
      cases hfound
      exact hty
    · exact .pure nofun
  · have returned : AllResolved (types.filterMap id) := by
      intro ty mem
      obtain ⟨found, found_mem, hfound⟩ := List.mem_filterMap.mp mem
      exact resolved found found_mem ty hfound
    split
    · exact List.forall_mem_append.mpr
        ⟨returned, List.forall_mem_singleton.mpr Ty.resolved_nil⟩
    · exact returned

theorem yields_paramTypes (file : FileId) {expected : List Ty} (h : AllResolved expected)
    (params : List Nat) : Yields AllResolved (paramTypes file expected params) := by
  refine .mapM Ty.Resolved _ fun entry _ => ?_
  obtain ⟨param, index⟩ := entry
  refine (yields_ask (.decl ⟨file, param⟩) trivial).bind fun ty hty => .pure ?_
  split
  · exact .getD (fun found at_index => h found (List.mem_of_getElem? at_index)) hty
  · exact hty

theorem yields_closureType (file : FileId) (node : NodeRef) {expected : Option Ty}
    (h : OptionResolved expected) : Yields Ty.Resolved (closureType ctx file node expected) := by
  have anyFunction : Ty.anyFunction.Resolved := rfl
  have expectedParams : AllResolved ((expected.bind Ty.params?).getD []) := by
    cases hparams : expected.bind Ty.params? with
    | none => exact nofun
    | some params =>
      obtain ⟨function, hfunction, hparams⟩ := Option.bind_eq_some_iff.mp hparams
      exact (h function hfunction).params? hparams
  unfold closureType
  split
  · exact .pure anyFunction
  split
  · exact .pure anyFunction
  refine (yields_paramTypes file expectedParams _).bind fun params hparams => ?_
  split
  · refine (yields_ask (.resolve _) trivial).bind fun ret hret => ?_
    exact .pure (Ty.resolved_function.mpr ⟨hparams, hret⟩)
  · refine (yields_returnsType file _ _).bind fun ret hret => ?_
    exact .pure (Ty.resolved_function.mpr ⟨hparams, hret⟩)

theorem yields_exprType (file : FileId) (node : NodeRef) {expected : Option Ty}
    (h : OptionResolved expected) : Yields Ty.Resolved (exprType ctx file node expected) := by
  unfold exprType
  split
  case h_2 => exact .pure Ty.resolved_unknown
  unfold formType
  split
  · exact .pure Ty.resolved_nil
  · exact .pure Ty.resolved_boolean
  · exact .pure Ty.resolved_number
  · exact .pure (Ty.resolved_literal _)
  · exact yields_nameType ctx file node _
  · exact yields_indexType ctx file _ _
  · exact yields_callType ctx file _ _ _
  · exact yields_closureType ctx file node h
  · exact yields_tableType ctx file node
  · exact yields_value file _
  · exact yields_binaryType file _ _ _
  · exact yields_unaryType file _ _
  · exact yields_value file _
  · exact .pure Ty.resolved_unknown

/-! ## Declarations -/

theorem yields_withOverloads (entry : Entry) {ty : Ty} (h : ty.Resolved) :
    Yields Ty.Resolved (withOverloads entry ty) := by
  refine .ite (.pure h) ?_
  refine (Plan.Yields.mapM Ty.Resolved _ fun overload _ =>
    yields_ask (.resolve overload) trivial).bind fun overloads resolved => ?_
  exact .pure (Ty.resolved_unionOf (List.forall_mem_cons.mpr ⟨h, resolved⟩))

theorem resolved_withGenerics (entry : Entry) {ty : Ty} (h : ty.Resolved) :
    (withGenerics entry ty).Resolved := by
  unfold withGenerics
  split
  · split
    · exact h
    · exact Ty.resolved_function.mpr (Ty.resolved_function.mp h)
  · exact h

theorem yields_parameterType (key : DeclKey) (entry : Entry) :
    Yields Ty.Resolved (parameterType ctx key entry) := by
  unfold parameterType
  split
  · exact yields_ask (.decl _) trivial
  · exact yields_globalType ctx _
  · exact yields_ask (.classValue _) trivial
  · refine (yields_contextualParam ctx key.file _).bind fun found hfound => ?_
    exact .pure (.getD hfound Ty.resolved_unknown)

theorem membersResolved_foldl {own attached : List (Member Ty)} (hown : MembersResolved own)
    (h : MembersResolved attached) : MembersResolved (attached.foldl putMember own) := by
  induction attached generalizing own with
  | nil => exact hown
  | cons added rest ih =>
    obtain ⟨hadded, hrest⟩ := List.forall_mem_cons.mp h
    refine ih (fun member mem => ?_) hrest
    rcases mem_putMember mem with rfl | mem
    · exact hadded
    · exact hown member mem

theorem yields_tableDeclType (key : DeclKey) (entry : Entry) (table : NodeRef) :
    Yields Ty.Resolved (tableDeclType ctx key entry table) := by
  refine (yields_tableType ctx key.file table).bind fun literal hliteral => ?_
  refine (Plan.Yields.any _).bind fun keys _ => ?_
  split
  · exact .pure hliteral
  · refine (yields_memberList ctx _).bind fun attached hattached => .pure ?_
    refine Ty.resolved_record.mpr (membersResolved_foldl ?_ hattached)
    split
    · exact Ty.resolved_record.mp hliteral
    · exact List.forall_mem_nil _

theorem yields_initializerType (key : DeclKey) (entry : Entry) :
    Yields Ty.Resolved (initializerType ctx key entry) := by
  unfold initializerType
  split
  · exact .pure Ty.resolved_unknown
  split
  · exact .pure Ty.resolved_number
  · exact yields_iteratorType ctx key.file _ _
  · refine .ite (yields_closureType ctx key.file _ nofun) ?_
    refine .ite (yields_tableDeclType ctx key entry _) ?_
    refine (yields_ask (.expr key.file _ none) nofun).bind fun ty hty => ?_
    exact .pure (hty.nthValue _)

theorem yields_variableType (key : DeclKey) (entry : Entry) :
    Yields Ty.Resolved (variableType ctx key entry) := by
  unfold variableType
  split
  · refine (yields_ask (.resolve _) trivial).bind fun ty hty => ?_
    exact yields_withOverloads entry (resolved_withGenerics entry hty)
  · refine .ite ?_ ?_
    · exact (yields_parameterType ctx key entry).bind fun ty hty => yields_withOverloads entry hty
    · exact (yields_initializerType ctx key entry).bind fun ty hty => yields_withOverloads entry hty

theorem yields_declType (key : DeclKey) : Yields Ty.Resolved (declType ctx key) := by
  unfold declType
  split
  · exact .pure Ty.resolved_unknown
  split
  · exact yields_ask (.classValue _) trivial
  · split
    · exact yields_ask (.resolve _) trivial
    · exact .pure Ty.resolved_unknown
  · exact yields_variableType ctx key _

end Rule

/-! ## What is kept -/

/-- Every type kept by a query is resolved: those in the cache and the class values. -/
structure State.Resolved (s : State) : Prop where
  cache : s.cache.Resolved
  classes : ∀ (name : String) (ty : Ty), s.classes[name]? = some ty → ty.Resolved

namespace State.Resolved

theorem start (options : Options) {cache : Cache} (h : cache.Resolved) :
    (State.start options cache).Resolved :=
  ⟨h, fun name ty found => by simp [State.start] at found⟩

theorem of_eq {s s' : State} (h : s.Resolved) (classes : s'.classes = s.classes)
    (entries : s'.cache.entries = s.cache.entries) : s'.Resolved :=
  ⟨fun key ty found => h.cache key ty (entries ▸ found),
    fun name ty found => h.classes name ty (classes ▸ found)⟩

theorem known? {s : State} (h : s.Resolved) {ctx : Context} {task : Task} {ty : Ty}
    (known : task.known? ctx s = some ty) : ty.Resolved := by
  cases task with
  | decl key =>
    simp only [Task.known?] at known
    split at known
    · cases known
      exact Ty.resolved_unknown
    · exact h.cache _ ty known
  | expr file node expected =>
    simp only [Task.known?] at known
    split at known
    · cases known
      exact Ty.resolved_unknown
    · cases known
  | classValue name => exact h.classes name ty known
  | expansion name file target => cases known

end State.Resolved

/-- The type that is kept is the one that was found or the one that is given. -/
theorem gives_store (ctx : Context) (task : Task) {ty : Ty} (hty : ty.Resolved) {s : State}
    (h : s.Resolved) : Gives State.Resolved Ty.Resolved (task.store ctx ty s) := by
  cases task with
  | decl key =>
    simp only [Task.store, Cache.insert]
    split
    · rename_i kept found
      exact ⟨h.cache _ kept found, h⟩
    · refine ⟨hty, fun other found hfound => ?_, h.classes⟩
      simp only [Std.HashMap.getElem?_insert] at hfound
      split at hfound
      · cases hfound
        exact hty
      · exact h.cache other found hfound
  | classValue name =>
    refine ⟨hty, h.cache, fun other found hfound => ?_⟩
    simp only [Task.store, Std.HashMap.getElem?_insert] at hfound
    split at hfound
    · cases hfound
      exact hty
    · exact h.classes other found hfound
  | expr | expansion => exact ⟨hty, h⟩

/-! ## Tasks and goals -/

/-- Whatever a reference expands to is resolved. -/
theorem yields_expandRef (ctx : Context) (name : String) (args : Plan Task (List Ty)) :
    (expandRef ctx name args).Yields (fun task ty => task.Resolved → ty.Resolved) Ty.Resolved := by
  unfold expandRef
  refine .ite (.pure Ty.resolved_unknown) ?_
  refine (Plan.Yields.any _).bind fun _ _ => ?_
  refine .ite (fun _ answered => answered trivial) ?_
  split
  · split
    · exact .pure Ty.resolved_unknown
    · exact (Plan.Yields.any args).bind fun _ _ => fun _ answered => answered trivial
  · refine .ite ?_ (.pure Ty.resolved_unknown)
    refine (Plan.Yields.any _).bind fun _ _ => ?_
    refine (Plan.Yields.mapM Ty.Resolved _ fun key _ => ?_).bind
      fun _ resolved => Ty.resolved_unionOf resolved
    exact fun _ answered => answered trivial

theorem yields_plan (ctx : Context) {goal : Goal} (h : goal.Resolved) :
    (goal.plan ctx).Yields (fun task ty => task.Resolved → ty.Resolved) Ty.Resolved := by
  cases goal with
  | task needed => exact fun _ answered => answered h
  | resolve ty => exact Ty.holds_expandM (Plan.follows_yields _) (yields_expandRef ctx) ty

theorem yields_rule (ctx : Context) {task : Task} (h : task.Resolved) :
    Rule.Yields Ty.Resolved (task.rule ctx) := by
  cases task with
  | decl key => exact Rule.yields_declType ctx key
  | expr file node expected => exact Rule.yields_exprType ctx file node h
  | classValue name => exact Rule.yields_classValue ctx name
  | expansion name file target => exact Rule.yields_ask (.resolve target) trivial

theorem resolved_fallback (ctx : Context) (task : Task) : (task.fallback ctx).Resolved := by
  cases task <;> rfl

/-- The guard watches over no expressions, and nothing is expected of other tasks. -/
theorem resolved_of_guarded {task : Task} {key : GuardKey} (guarded : task.guardKey? = some key) :
    task.Resolved := by
  cases task with
  | expr => cases guarded
  | decl | classValue | expansion => trivial

/-- A query gives out and keeps only resolved types. What is kept is resolved even if an answer is
not, because something else was expected of it. -/
def resolvedContract {ctx : Context} (bindings : ctx.bindings.Resolved) : Contract ctx where
  task asked ty := asked.Resolved → ty.Resolved
  goal asked ty := asked.Resolved → ty.Resolved
  state := State.Resolved
  of_eq classes entries h := h.of_eq classes entries
  known h known _ := h.known? known
  fallback asked _ := resolved_fallback ctx asked
  unsolved _ _ := Ty.resolved_unknown
  rule asked := by
    by_cases expected : asked.Resolved
    · exact (yields_rule ctx expected).weaken fun _ resolved _ => resolved
    · exact (Plan.Yields.any _).weaken fun _ _ given => absurd given expected
  plan asked := by
    by_cases expected : asked.Resolved
    · exact (yields_plan ctx expected).weaken fun _ resolved _ => resolved
    · exact (Plan.Yields.any _).weaken fun _ _ given => absurd given expected
  finished := by
    intro asked ty h expected
    cases asked with
    | decl => exact (h expected).instantiate bindings
    | expr | classValue | expansion => exact h expected
  store := by
    intro asked key ty s guarded h kept
    obtain ⟨answer, state⟩ := gives_store ctx asked (h (resolved_of_guarded guarded)) kept
    exact ⟨fun _ => answer, state⟩

theorem reliable_solveWithin {ctx : Context} (bindings : ctx.bindings.Resolved) (levels : Nat) :
    (resolvedContract bindings).Reliable (fun goal ty => goal.Resolved → ty.Resolved)
      (solveWithin ctx levels) :=
  (resolvedContract bindings).reliable_solveWithin levels

/-- The state after solving goals one after the other. -/
def afterGoals (ctx : Context) (goals : List Goal) (s : State) : State :=
  goals.foldl (fun s goal => (exec (solve ctx goal) s).2) s

theorem Contract.state_afterGoals {ctx : Context} (contract : Contract ctx) (goals : List Goal)
    {s : State} (h : contract.state s) : contract.state (afterGoals ctx goals s) := by
  induction goals generalizing s with
  | nil => exact h
  | cons goal rest ih => exact ih (contract.reliable_solve goal s h).state

theorem resolved_afterGoals {ctx : Context} (bindings : ctx.bindings.Resolved) (goals : List Goal)
    {s : State} (h : s.Resolved) : (afterGoals ctx goals s).Resolved :=
  (resolvedContract bindings).state_afterGoals goals h

/-- Whatever a query is asked, and whatever it was asked before, it answers with a type that has no
reference inside, so that erasing references from it changes nothing; and it keeps no type with
one. -/
theorem solve_resolved (ctx : Context) (bindings : ctx.bindings.Resolved) (cache : Cache)
    (kept : cache.Resolved) (earlier : List Goal) (goal : Goal) (expected : goal.Resolved) :
    ∃ ty after,
      exec (solve ctx goal) (afterGoals ctx earlier (.start ctx.options cache)) = (ty, after) ∧
        ty.containsAlias = false ∧ ty.eraseRefs = ty ∧ after.cache.Resolved := by
  have before := resolved_afterGoals bindings earlier (State.Resolved.start ctx.options kept)
  have solved := reliable_solveWithin bindings (2 * ctx.options.maxDepth + 1) goal _ before
  have resolved := solved.answer expected
  exact ⟨_, _, rfl, resolved, resolved.eraseRefs_eq, solved.state.cache⟩

/-- A documented global whose type refers to a name that nothing declares. -/
def danglingTree : Tree where
  nodes := #[
    ⟨.name "a", ⟨0, 1⟩, some 2⟩, ⟨.nil, ⟨2, 3⟩, some 2⟩,
    ⟨.assign [some 0] [some 1], ⟨0, 5⟩, some 3⟩,
    ⟨.block [some 2], ⟨0, 7⟩, some 4⟩, ⟨.chunk (some 3), ⟨0, 9⟩, none⟩]
  docs := .ofList [(2, ⟨[.typeTag (.array (.name "Missing" []))]⟩)]
  root := some 4

/-- The project of this file, with a type parameter bound. -/
def dangling : Context :=
  .make (.ofFiles [⟨⟨1⟩, 1, danglingTree, .ofTree ⟨1⟩ danglingTree⟩]) .standard
    ⟨[("T", .array .number)]⟩ false

/-- A cache with one type in it. -/
def keptNumber : Cache :=
  { Cache.empty with
    entries := (∅ : Std.HashMap CacheKey Ty).insert ⟨⟨⟨2⟩, 0⟩, 1, []⟩ .number }

/-- Asked for the global, and then for a type that refers to it and to nothing. -/
theorem solve_resolved_dangling :
    ((Ty.union [.array (.aliasRef "Missing" []), .aliasRef "a" []]).containsAlias = true ∧
      dangling.bindings.Resolved ∧ keptNumber.Resolved) ∧
    ∃ ty after,
      exec (solve dangling (.resolve (.union [.array (.aliasRef "Missing" []), .aliasRef "a" []])))
          (afterGoals dangling [.decl ⟨⟨1⟩, 0⟩] (.start dangling.options keptNumber))
        = (ty, after) ∧
        ty.containsAlias = false ∧ ty.eraseRefs = ty ∧ after.cache.Resolved := by
  have bindings : dangling.bindings.Resolved := List.forall_mem_singleton.mpr rfl
  have kept : keptNumber.Resolved := by
    intro key ty found
    simp only [keptNumber, Std.HashMap.getElem?_insert] at found
    split at found
    · cases found
      rfl
    · simp at found
  exact ⟨⟨rfl, bindings, kept⟩, solve_resolved dangling bindings keptNumber kept _ _ trivial⟩

end Infer

end LuaTyping
