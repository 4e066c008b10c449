import LuaTyping.Infer.Reference
import LuaTyping.Proofs.Decl.Overridden
import LuaTyping.Proofs.Subtyping.Nesting

/-!
# Contexts that the rules cannot tell apart

No rule reads the initialiser of a declaration whose type is documented, and no rule reads how deep
a query may go. So two contexts that differ in nothing else give the same plan for every rule, and
what solves goals over the one solves them over the other in the same way. The limit on the depth
then matters only through the guard and the counter of a query, and through the number of levels
that it is given.
-/

set_option autoImplicit false

namespace LuaTyping.Infer

/-- The two contexts differ at most in initialisers that a documented type overrides and in how deep
a query may go. -/
structure Context.Interchangeable (ctx other : Context) : Prop where
  snapshot : ctx.snapshot.UpToOverridden other.snapshot
  options : other.options = { ctx.options with maxDepth := other.options.maxDepth }
  bindings : other.bindings = ctx.bindings
  fingerprint : other.fingerprint = ctx.fingerprint
  cancelled : other.cancelled = ctx.cancelled

variable {ctx other : Context} (h : ctx.Interchangeable other)
include h

namespace Rule.Interchangeable

/-! ## Members and classes -/

theorem bestOf_eq : bestOf other.snapshot = bestOf ctx.snapshot := by
  have worth : worthOf other.snapshot = worthOf ctx.snapshot := by
    funext key
    rw [worthOf, worthOf, h.snapshot.view_entry key _ fun _ _ => rfl]
  funext keys
  rw [bestOf, bestOf, worth]
  refine List.filter_congr fun key _ => ?_
  rcases h.snapshot.entry?_cases key with ⟨left, right⟩ | ⟨entry, entry', left, right, same⟩
  · rw [left, right]
  · rw [left, right, same.eq_with]

theorem bestType_eq : bestType other = bestType ctx := by
  funext keys
  rw [bestType, bestType, bestOf_eq h]

theorem classMember_eq : classMember other = classMember ctx := by
  have search (member : String) (chain : List String) :
      classMember.search other member chain = classMember.search ctx member chain := by
    induction chain with
    | nil => rfl
    | cons name rest ih =>
      rw [classMember.search, classMember.search, h.snapshot.classMembers_eq, h.snapshot.isNamed_eq,
        bestType_eq h, ih]
  funext className member
  rw [classMember, classMember, h.snapshot.classChain_eq, search]

omit h in
theorem memberTypes_eq (member : String) {bases : List Ty}
    (each : ∀ base ∈ bases, memberType other member base = memberType ctx member base) :
    memberTypes other member bases = memberTypes ctx member bases := by
  induction bases with
  | nil => rfl
  | cons base rest ih =>
    obtain ⟨first, others⟩ := List.forall_mem_cons.mp each
    rw [memberTypes, memberTypes, first, ih others]

theorem memberType_eq (member : String) (base : Ty) :
    memberType other member base = memberType ctx member base := by
  induction base using Ty.induction_on_parts with
  | step base ih =>
    cases base with
    | named => rw [memberType, memberType, classMember_eq h]
    | union alts =>
      have same : memberTypes other member alts = memberTypes ctx member alts :=
        memberTypes_eq member ih
      rw [memberType, memberType, same]
    | _ => rfl

omit h in
theorem indexedTypes_eq (key : Ty) {bases : List Ty}
    (each : ∀ base ∈ bases, indexedType other key base = indexedType ctx key base) :
    indexedTypes other key bases = indexedTypes ctx key bases := by
  induction bases with
  | nil => rfl
  | cons base rest ih =>
    obtain ⟨first, others⟩ := List.forall_mem_cons.mp each
    rw [indexedTypes, indexedTypes, first, ih others]

theorem indexedType_eq (key base : Ty) :
    indexedType other key base = indexedType ctx key base := by
  induction base using Ty.induction_on_parts with
  | step base ih =>
    cases base with
    | named | record =>
      unfold indexedType
      simp only [memberType_eq h]
    | union alts =>
      have same : indexedTypes other key alts = indexedTypes ctx key alts := indexedTypes_eq key ih
      unfold indexedType
      simp only [memberType_eq h, same]
    | _ => rfl

theorem groupMembers_eq : groupMembers other.snapshot = groupMembers ctx.snapshot := by
  funext keys
  rw [groupMembers, groupMembers]
  congr 1
  funext groups key
  rcases h.snapshot.entry?_cases key with ⟨left, right⟩ | ⟨entry, entry', left, right, same⟩
  · rw [left, right]
  · rw [left, right, same.eq_with]

theorem groupMember_eq : groupMember other = groupMember ctx := by
  funext group
  simp only [groupMember, h.snapshot.view_entry _ Entry.deprecated fun _ _ => rfl]
  cases group.keys.head? with
  | none => rfl
  | some key =>
    rcases h.snapshot.entry?_cases key with ⟨left, right⟩ | ⟨entry, entry', left, right, same⟩
    · simp only [Option.bind_some, left, right]
    · simp only [Option.bind_some, left, right]
      rw [same.eq_with]

theorem memberList_eq : memberList other = memberList ctx := by
  funext keys
  rw [memberList, memberList, groupMembers_eq h, groupMember_eq h]

theorem acyclicSupertypes_eq :
    acyclicSupertypes other.snapshot = acyclicSupertypes ctx.snapshot := by
  funext name
  rw [acyclicSupertypes, acyclicSupertypes, h.snapshot.supertypes_eq]

theorem classValue_eq : classValue other = classValue ctx := by
  funext name
  rw [classValue, classValue, memberList_eq h, h.snapshot.classMembers_eq, acyclicSupertypes_eq h]

theorem resolver_eq : resolver other = resolver ctx := by
  rw [resolver, resolver, h.snapshot.supertypes_eq, classMember_eq h]

theorem projectUnion_eq : projectUnion other = projectUnion ctx := by
  funext tys
  rw [projectUnion, projectUnion, resolver_eq h]

theorem globalType_eq : globalType other = globalType ctx := by
  funext name
  rw [globalType, globalType, h.snapshot.globalDecls_eq]

/-! ## Calls -/

theorem eraseUnbound_eq : eraseUnbound other.options = eraseUnbound ctx.options := by
  rw [h.options]
  rfl

theorem returnType_eq : returnType other.options = returnType ctx.options := by
  rw [h.options]
  rfl

theorem constructed?_eq : constructed? other.options = constructed? ctx.options := by
  rw [h.options]
  rfl

omit h in
theorem applyCalls_eq (file : FileId) (self : List Ty) (args : List NodeRef) {callees : List Ty}
    (each : ∀ callee ∈ callees,
      applyCall other file self args callee = applyCall ctx file self args callee) :
    applyCalls other file self args callees = applyCalls ctx file self args callees := by
  induction callees with
  | nil => rfl
  | cons callee rest ih =>
    obtain ⟨first, others⟩ := List.forall_mem_cons.mp each
    rw [applyCalls, applyCalls, first, ih others]

theorem applyCall_eq (file : FileId) (self : List Ty) (args : List NodeRef) (callee : Ty) :
    applyCall other file self args callee = applyCall ctx file self args callee := by
  induction callee using Ty.induction_on_parts with
  | step callee ih =>
    cases callee with
    | function => rw [applyCall, applyCall, returnType_eq h]
    | union alts =>
      have same : applyCalls other file self args alts = applyCalls ctx file self args alts :=
        applyCalls_eq file self args ih
      rw [applyCall, applyCall, same]
    | _ => rfl

theorem calleeOf_eq : calleeOf other = calleeOf ctx := by
  funext file callee method
  simp only [calleeOf, h.snapshot.form?_eq, memberType_eq h]

theorem callType_eq : callType other = callType ctx := by
  funext file callee method args
  simp only [callType, calleeOf_eq h, applyCall_eq h, constructed?_eq h]

theorem expectedArgument_eq : expectedArgument other = expectedArgument ctx := by
  have generics : other.options.genericsEnabled = ctx.options.genericsEnabled := by rw [h.options]
  funext file arg
  simp only [expectedArgument, h.snapshot.tree?_eq, memberType_eq h, eraseUnbound_eq h, generics]

theorem contextualParam_eq : contextualParam other = contextualParam ctx := by
  funext file param
  simp only [contextualParam, h.snapshot.tree?_eq, expectedArgument_eq h]

theorem iteratorType_eq : iteratorType other = iteratorType ctx := by
  have iteration : tableIteration? other.snapshot = tableIteration? ctx.snapshot := by
    funext file expr
    simp only [tableIteration?, h.snapshot.form?_eq, h.snapshot.resolveName_eq,
      h.snapshot.startOf_eq]
  funext file expr index
  rw [iteratorType, iteratorType, iteration]

/-! ## Expressions -/

theorem isLexical_eq (file : FileId) (keys : List DeclKey) :
    isLexical other.snapshot file keys = isLexical ctx.snapshot file keys := by
  rcases keys with _ | ⟨key, _ | _⟩
  · rfl
  · rw [isLexical, isLexical]
    rcases h.snapshot.entry?_cases key with ⟨left, right⟩ | ⟨entry, entry', left, right, same⟩
    · rw [left, right]
    · rw [left, right, same.eq_with]
  · rfl

theorem nameType_eq : nameType other = nameType ctx := by
  funext file node name
  simp only [nameType, h.snapshot.resolveName_eq, h.snapshot.startOf_eq, isLexical_eq h,
    projectUnion_eq h]

theorem indexType_eq : indexType other = indexType ctx := by
  funext file base key
  simp only [indexType, memberType_eq h, indexedType_eq h]

theorem tableType_eq : tableType other = tableType ctx := by
  funext file node
  rw [tableType, tableType]
  rcases h.snapshot.file?_cases file with ⟨left, right⟩ | ⟨found, found', left, right, same⟩
  · rw [left, right]
  · have tree : found'.tree = found.tree := by rw [same.eq_with]
    have add : addField file found.tree found'.decls = addField file found.tree found.decls := by
      funext parts field
      simp only [addField, same.decls.declForNode?_eq]
    simp only [left, right, tree, add]

theorem closureType_eq : closureType other = closureType ctx := by
  funext file node expected
  rw [closureType, closureType]
  rcases h.snapshot.file?_cases file with ⟨left, right⟩ | ⟨found, found', left, right, same⟩
  · rw [left, right]
  · have tree : found'.tree = found.tree := by rw [same.eq_with]
    simp only [left, right, tree, same.decls.function?_eq]

theorem exprType_eq : exprType other = exprType ctx := by
  funext file node expected
  have form_eq (form : Form) :
      formType other file node expected form = formType ctx file node expected form := by
    cases form <;>
      simp only [formType, nameType_eq h, indexType_eq h, callType_eq h, closureType_eq h,
        tableType_eq h]
  simp only [exprType, h.snapshot.form?_eq, form_eq]

/-! ## Declarations -/

theorem parameterType_eq : parameterType other = parameterType ctx := by
  funext key entry
  simp only [parameterType, globalType_eq h, contextualParam_eq h]

theorem tableDeclType_eq : tableDeclType other = tableDeclType ctx := by
  have attached : attachedMembers other = attachedMembers ctx := by
    funext key entry
    rw [attachedMembers, attachedMembers, h.snapshot.globalMembers_eq, h.snapshot.tableMembers_eq]
  funext key entry table
  rw [tableDeclType, tableDeclType, tableType_eq h, attached, memberList_eq h]

theorem initializerType_eq : initializerType other = initializerType ctx := by
  funext key entry
  simp only [initializerType, iteratorType_eq h, closureType_eq h, tableDeclType_eq h]

/-- A documented type is all that is asked for; without one the initialisers are the same. -/
theorem variableType_eq (key : DeclKey) {entry entry' : Entry}
    (same : entry.UpToOverridden entry') :
    variableType other key entry' = variableType ctx key entry := by
  cases documented : entry.declared with
  | none =>
    rw [same.eq_of_undocumented documented]
    simp only [variableType, parameterType_eq h, initializerType_eq h]
  | some declared =>
    have documented' : entry'.declared = some declared := by rw [same.eq_with, documented]
    rw [variableType, variableType, documented, documented']
    refine congrArg (bind _) (funext fun ty => ?_)
    exact same.view (fun entry => withOverloads entry (withGenerics entry ty)) fun _ => rfl

theorem declType_eq : declType other = declType ctx := by
  funext key
  rw [declType, declType]
  rcases h.snapshot.entry?_cases key with ⟨left, right⟩ | ⟨entry, entry', left, right, same⟩
  · rw [left, right]
  · have kind : entry'.kind = entry.kind := by rw [same.eq_with]
    have name : entry'.name = entry.name := by rw [same.eq_with]
    have declared : entry'.declared = entry.declared := by rw [same.eq_with]
    simp only [left, right, kind, name, declared, variableType_eq h key same]

end Rule.Interchangeable

/-! ## Goals -/

theorem Context.Interchangeable.expandRef_eq : expandRef other = expandRef ctx := by
  have globals : other.options.globalNamesAsTypes = ctx.options.globalNamesAsTypes := by
    rw [h.options]
  funext name args
  simp only [expandRef, h.cancelled, h.snapshot.isClass_eq, h.snapshot.aliasDecls_eq,
    h.snapshot.globalDecls_eq, globals]
  cases ctx.snapshot.aliasDecls name with
  | nil => rfl
  | cons key rest =>
    rcases h.snapshot.entry?_cases key with ⟨left, right⟩ | ⟨entry, entry', left, right, same⟩
    · simp only [left, right]
    · have declared : entry'.declared = entry.declared := by rw [same.eq_with]
      have generics : entry'.generics = entry.generics := by rw [same.eq_with]
      simp only [left, right, declared, generics]

theorem Context.Interchangeable.plan_eq : Goal.plan other = Goal.plan ctx := by
  funext goal
  cases goal with
  | task needed => rfl
  | resolve ty => rw [Goal.plan, Goal.plan, h.expandRef_eq]

theorem Context.Interchangeable.perform_eq (deeper : Solver) :
    perform other deeper = perform ctx deeper := by
  have key (decl : DeclKey) : cacheKey other decl = cacheKey ctx decl := by
    rw [cacheKey, cacheKey, h.snapshot.generation_eq, h.fingerprint]
  have may : mayCache other = mayCache ctx := by rw [mayCache, mayCache, h.cancelled]
  funext task
  cases task with
  | decl decl =>
    simp only [perform, performDecl, h.cancelled, h.bindings, key, may,
      Rule.Interchangeable.declType_eq h]
  | expr file node expected =>
    simp only [perform, performExpr, h.cancelled, Rule.Interchangeable.exprType_eq h]
  | classValue name =>
    simp only [perform, performClass, may, Rule.Interchangeable.classValue_eq h,
      Rule.Interchangeable.acyclicSupertypes_eq h]
  | expansion name file target => rfl

/-- Goals are solved alike over both contexts. -/
theorem Context.Interchangeable.solveWithin_eq (levels : Nat) :
    solveWithin other levels = solveWithin ctx levels := by
  induction levels with
  | zero => rfl
  | succ levels ih =>
    funext goal
    rw [solveWithin, solveWithin, h.plan_eq, ih, h.perform_eq]

/-! ## Questions from outside -/

namespace Rule.Interchangeable

theorem nodeType_eq : nodeType other = nodeType ctx := by
  funext file node
  rw [nodeType, nodeType, h.cancelled]
  simp only [Snapshot.decls?]
  rcases h.snapshot.file?_cases file with ⟨left, right⟩ | ⟨found, found', left, right, same⟩
  · simp only [left, right]
  · simp only [left, right, Option.map_some, Option.bind_some, same.decls.declForNode?_eq]

theorem isSubtype_eq : isSubtype other = isSubtype ctx := by
  have strict : other.options.nilStrict = ctx.options.nilStrict := by rw [h.options]
  funext a b
  rw [isSubtype, isSubtype, resolver_eq h, strict]

theorem memberReferences_eq : memberReferences other = memberReferences ctx := by
  have tables : tableReferences other = tableReferences ctx := by
    funext file base member
    have owner (key : DeclKey) : (other.snapshot.entry? key).bind (ownerBehind? key)
        = (ctx.snapshot.entry? key).bind (ownerBehind? key) := by
      rcases h.snapshot.entry?_cases key with ⟨left, right⟩ | ⟨entry, entry', left, right, same⟩
      · rw [left, right]
      · rw [left, right]
        exact same.view (ownerBehind? key) fun _ => rfl
    simp only [tableReferences, h.snapshot.form?_eq, h.snapshot.resolveName_eq,
      h.snapshot.startOf_eq, h.snapshot.resolveMember_eq, owner]
  funext file base member
  simp only [memberReferences, h.snapshot.resolveClassMember_eq, tables]

theorem references_eq : references other = references ctx := by
  funext file node
  rw [references, references]
  rcases h.snapshot.file?_cases file with ⟨left, right⟩ | ⟨found, found', left, right, same⟩
  · rw [left, right]
  · have tree : found'.tree = found.tree := by rw [same.eq_with]
    simp only [left, right, tree, same.decls.declForNode?_eq, h.snapshot.resolveName_eq,
      memberReferences_eq h]

end Rule.Interchangeable

end LuaTyping.Infer
