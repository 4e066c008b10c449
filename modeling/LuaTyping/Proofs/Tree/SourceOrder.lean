import LuaTyping.Proofs.Tree.Layout

/-!
# Trees built in source order

A tree is built in source order if every call of the builder finds its operands as the last nodes
that are not yet part of another one, in the order of the text. The spans of such a tree tell where
a name stands: a node whose span holds the start of a name is that name or a node around it, or the
block of an `if` or `repeat` statement of which the name is in a later part.
-/

set_option autoImplicit false

namespace LuaTyping

/-! ## The calls of the builder -/

/-- A call of the builder that makes a statement or expression. -/
inductive Construct where
  | plain (form : Form)
  | docOnly (tags : List Tag)
  | closure (params : List String) (variadic : Bool) (body : List NodeRef)
  | locals (names : List String) (exprs : List NodeRef)
  | localFunction (text : String) (func : NodeRef)
  | methodStat (base method : String) (func : NodeRef)
  | ifStat (arms : List (NodeRef × List NodeRef)) (elseBody : Option (List NodeRef))
  | whileStat (cond : NodeRef) (body : List NodeRef)
  | repeatStat (body : List NodeRef) (cond : NodeRef)
  | numericFor (var : String) (start limit step : NodeRef) (body : List NodeRef)
  | genericFor (names : List String) (exprs body : List NodeRef)
  | doStat (body : List NodeRef)

namespace Construct

/-- Runs the call. -/
def make : Construct → BuildM NodeRef
  | .plain form => BuildM.push form
  | .docOnly tags => BuildM.docOnly tags
  | .closure params variadic body => BuildM.closure params variadic body
  | .locals names exprs => BuildM.locals names exprs
  | .localFunction text func => BuildM.localFunction text func
  | .methodStat base method func => BuildM.methodStat base method func
  | .ifStat arms elseBody => BuildM.ifStat arms elseBody
  | .whileStat cond body => BuildM.whileStat cond body
  | .repeatStat body cond => BuildM.repeatStat body cond
  | .numericFor var start limit step body => BuildM.numericFor var start limit step body
  | .genericFor names exprs body => BuildM.genericFor names exprs body
  | .doStat body => BuildM.doStat body

/-- The operands of a call in the order of the text, the absent ones among them. -/
def refs : Construct → List NodeRef
  | .plain form => form.parts
  | .docOnly _ => []
  | .closure _ _ body => body
  | .locals _ exprs => exprs
  | .localFunction _ func => [func]
  | .methodStat _ _ func => [func]
  | .ifStat arms elseBody => arms.flatMap (fun arm => arm.1 :: arm.2) ++ elseBody.getD []
  | .whileStat cond body => cond :: body
  | .repeatStat body cond => body ++ [cond]
  | .numericFor _ start limit step body => start :: limit :: step :: body
  | .genericFor _ exprs body => exprs ++ body
  | .doStat body => body

/-- The operands that are there, in the order of the text. -/
def operands (construct : Construct) : List Nat := construct.refs.filterMap id

end Construct

/-- The builders that are reached by calls in source order, each with the nodes that are not yet
part of another one. -/
inductive InSourceOrder : Builder → List Nat → Prop
  | empty : InSourceOrder .empty []
  | make {builder : Builder} {rest : List Nat} (construct : Construct)
      (h : InSourceOrder builder (rest ++ construct.operands)) :
      InSourceOrder (construct.make builder).2 (rest ++ (construct.make builder).1.toList)
  | doc {builder : Builder} {pending : List Nat} (node : NodeRef) (tags : List Tag)
      (h : InSourceOrder builder pending) :
      InSourceOrder (BuildM.doc node tags builder).2 pending

/-- The tree is finished by wrapping all that was made in source order. -/
def Tree.Composed (tree : Tree) : Prop :=
  ∃ builder stmts, InSourceOrder builder (stmts.filterMap id) ∧
    tree = (BuildM.finish stmts builder).2.tree

/-! ## Calls in source order -/

theorem filterMap_id_cons (ref : NodeRef) (refs : List NodeRef) :
    (ref :: refs).filterMap id = ref.toList ++ refs.filterMap id := by
  cases ref <;> rfl

namespace BuildM

/-- Where `start` holds before the step, `result` holds of its answer and the builder after it. -/
def Leads {α : Type} (start : Builder → Prop) (step : BuildM α) (result : α → Builder → Prop) :
    Prop :=
  ∀ builder, start builder → result (step builder).1 (step builder).2

theorem Leads.pure {α : Type} {result : α → Builder → Prop} (a : α) :
    Leads (result a) (Pure.pure a : BuildM α) result := fun _ h => h

theorem Leads.bind {α β : Type} {start : Builder → Prop} {step : BuildM α} {next : α → BuildM β}
    {between : α → Builder → Prop} {result : β → Builder → Prop}
    (first : Leads start step between) (then_ : ∀ a, Leads (between a) (next a) result) :
    Leads start (step >>= next) result :=
  fun builder h => then_ _ _ (first builder h)

theorem Leads.after {α : Type} {start earlier : Builder → Prop} {step : BuildM α}
    {result : α → Builder → Prop} (h : Leads start step result)
    (imp : ∀ builder, earlier builder → start builder) : Leads earlier step result :=
  fun builder holds => h builder (imp builder holds)

/-- The step finds `xs` as the last nodes that are pending, and leaves its own node in their
place. -/
def Replaces (xs : List Nat) (step : BuildM NodeRef) : Prop :=
  ∀ rest, Leads (Builder.Layout · (rest ++ xs) [] []) step
    (fun ref builder => builder.Layout (rest ++ ref.toList) [] [])

variable {rest done todo xs : List Nat}

theorem replaces_push {form : Form} (perm : form.children.Perm xs)
    (block : ∀ stmts, form = .block stmts → form.children = xs) :
    Replaces xs (push form) := fun _ _ h => h.push perm block

theorem replaces_block (stmts : List NodeRef) : Replaces (stmts.filterMap id) (block stmts) :=
  replaces_push (.refl _) fun _ _ => rfl

theorem leads_wrap (stmts : List NodeRef) :
    Leads (Builder.Layout · rest done (stmts.filterMap id ++ todo)) (block stmts)
      (fun ref builder => builder.Layout rest (done ++ ref.toList) todo) :=
  fun _ h => h.wrap

/-- A name has no parts. -/
theorem leads_name (text : String) :
    Leads (Builder.Layout · rest [] []) (name text)
      (fun ref builder => builder.Layout (rest ++ ref.toList) [] []) := by
  have perm : (Form.name text).children.Perm [] := .refl _
  exact (replaces_push perm (by simp) rest).after fun _ h => by simpa using h

theorem leads_names (texts : List String) :
    Leads (Builder.Layout · rest [] []) (texts.mapM name)
      (fun refs builder => builder.Layout (rest ++ refs.filterMap id) [] []) := by
  induction texts generalizing rest with
  | nil => exact (Leads.pure []).after fun _ h => by simpa using h
  | cons text texts ih =>
    rw [List.mapM_cons]
    refine (leads_name text).bind fun ref => ih.bind fun refs => (Leads.pure _).after fun _ h => ?_
    rw [List.append_assoc, ← filterMap_id_cons] at h
    exact h

/-- A comment changes no node. -/
theorem leads_doc (node : NodeRef) (tags : List Tag) :
    Leads (Builder.Layout · rest [] []) (doc node tags)
      (fun _ builder => builder.Layout rest [] []) := by
  intro builder h
  cases node with
  | none => exact h
  | some index =>
    have placed := h.placed
    have pending := h.pending
    have ext : builder.tree.Extends (doc (some index) tags builder).2.tree :=
      ⟨fun _ _ found => found, fun _ _ part => part⟩
    have arranged := placed.arranged
    exact ⟨⟨placed.cursor, arranged.stop, arranged.name, arranged.linked, arranged.listed,
        arranged.inner, arranged.once, arranged.block⟩, h.numbered,
      ⟨pending.nodup, pending.free, pending.cover,
        pending.ascending.mono ext (fun _ _ => rfl) fun _ named => named⟩, h.held⟩

theorem replaces_docOnly (tags : List Tag) : Replaces [] (docOnly tags) := by
  intro rest
  have perm : Form.docOnly.children.Perm [] := .refl _
  exact (replaces_push perm (by simp) rest).bind fun ref builder h => leads_doc ref tags builder h

theorem replaces_closure (params : List String) (variadic : Bool) (body : List NodeRef) :
    Replaces (body.filterMap id) (closure params variadic body) := by
  intro rest
  refine (replaces_block body rest).bind fun block => (leads_names params).bind fun refs => ?_
  rw [List.append_assoc]
  refine replaces_push ?_ (by simp) rest
  simp only [Form.children, Form.parts, List.filterMap_append, filterMap_id_cons,
    List.filterMap_nil, List.append_nil]
  exact List.perm_append_comm

theorem replaces_locals (names : List String) (exprs : List NodeRef) :
    Replaces (exprs.filterMap id) (locals names exprs) := by
  intro rest
  refine (leads_names names).bind fun refs => ?_
  rw [List.append_assoc]
  refine replaces_push ?_ (by simp) rest
  simp only [Form.children, Form.parts, List.filterMap_append]
  exact List.perm_append_comm

theorem replaces_localFunction (text : String) (func : NodeRef) :
    Replaces ([func].filterMap id) (localFunction text func) := by
  intro rest
  refine (leads_name text).bind fun declared => ?_
  rw [List.append_assoc]
  refine replaces_push ?_ (by simp) rest
  simp only [Form.children, Form.parts, filterMap_id_cons, List.filterMap_nil, List.append_nil]
  exact List.perm_append_comm

theorem replaces_methodStat (base method : String) (func : NodeRef) :
    Replaces ([func].filterMap id) (methodStat base method func) := by
  intro rest
  refine (leads_name base).bind fun base =>
    Leads.bind (replaces_push ?_ (by simp) _) fun target => ?_
  · simp only [Form.children, Form.parts, IndexKey.parts, filterMap_id_cons, List.filterMap_nil,
      List.append_nil, List.Perm.refl]
  · rw [List.append_assoc]
    refine replaces_push ?_ (by simp) rest
    simp only [Form.children, Form.parts, filterMap_id_cons, List.filterMap_nil, List.append_nil]
    exact List.perm_append_comm

theorem replaces_whileStat (cond : NodeRef) (body : List NodeRef) :
    Replaces ((cond :: body).filterMap id) (whileStat cond body) := by
  intro rest
  rw [filterMap_id_cons, ← List.append_assoc]
  refine (replaces_block body (rest ++ cond.toList)).bind fun block => ?_
  rw [List.append_assoc]
  refine replaces_push (.of_eq ?_) (by simp) rest
  simp only [Form.children, Form.parts, filterMap_id_cons, List.filterMap_nil, List.append_nil]

theorem replaces_numericFor (var : String) (start limit step : NodeRef) (body : List NodeRef) :
    Replaces (([start, limit, step] ++ body).filterMap id)
      (numericFor var start limit step body) := by
  intro rest
  rw [List.filterMap_append, ← List.append_assoc]
  refine (replaces_block body _).bind fun block => (leads_name var).bind fun var => ?_
  rw [List.append_assoc, List.append_assoc]
  refine replaces_push (List.perm_iff_count.mpr fun child => ?_) (by simp) rest
  simp only [Form.children, Form.parts, filterMap_id_cons, List.filterMap_nil, List.append_nil,
    List.count_append]
  omega

theorem replaces_genericFor (names : List String) (exprs body : List NodeRef) :
    Replaces ((exprs ++ body).filterMap id) (genericFor names exprs body) := by
  intro rest
  rw [List.filterMap_append, ← List.append_assoc]
  refine (replaces_block body _).bind fun block => (leads_names names).bind fun names => ?_
  rw [List.append_assoc, List.append_assoc]
  refine replaces_push (List.perm_iff_count.mpr fun child => ?_) (by simp) rest
  simp only [Form.children, Form.parts, filterMap_id_cons, List.filterMap_append,
    List.filterMap_nil, List.append_nil, List.count_append]
  omega

theorem replaces_doStat (body : List NodeRef) : Replaces (body.filterMap id) (doStat body) := by
  intro rest
  refine (replaces_block body rest).bind fun block =>
    replaces_push (.of_eq ?_) (by simp) rest
  simp only [Form.children, Form.parts, filterMap_id_cons, List.filterMap_nil, List.append_nil]

theorem replaces_repeatStat (body : List NodeRef) (cond : NodeRef) :
    Replaces ((body ++ [cond]).filterMap id) (repeatStat body cond) := by
  intro rest
  rw [List.filterMap_append]
  refine Leads.after ((leads_wrap body).bind fun block builder h => ?_) fun _ h => h.begin
  have moved : builder.Layout rest (block.toList ++ [cond].filterMap id) [] :=
    Builder.Layout.move (by simpa using h)
  refine moved.close ?_ rfl
  simp only [Form.children, Form.parts, filterMap_id_cons, List.filterMap_nil, List.append_nil]

/-- The arms of an `if` are wrapped one after another. -/
theorem leads_arms (arms : List (NodeRef × List NodeRef)) :
    Leads
      (Builder.Layout · rest done ((arms.flatMap fun arm => arm.1 :: arm.2).filterMap id ++ todo))
      (arms.mapM fun arm => do pure (Arm.mk arm.1 (← block arm.2)))
      (fun made builder => builder.Layout rest
        (done ++ (made.flatMap fun arm => [arm.cond, arm.block]).filterMap id) todo) := by
  induction arms generalizing done with
  | nil => exact (Leads.pure []).after fun _ h => by simpa using h
  | cons arm arms ih =>
    rw [List.mapM_cons, bind_assoc]
    have first : Leads
        (Builder.Layout · rest done
          (((arm :: arms).flatMap fun arm => arm.1 :: arm.2).filterMap id ++ todo))
        (block arm.2)
        (fun ref builder => builder.Layout rest (done ++ arm.1.toList ++ ref.toList)
          ((arms.flatMap fun arm => arm.1 :: arm.2).filterMap id ++ todo)) :=
      (leads_wrap arm.2).after fun _ h =>
        Builder.Layout.move (by
          simpa only [List.flatMap_cons, List.cons_append, filterMap_id_cons,
            List.filterMap_append, List.append_assoc] using h)
    refine first.bind fun block => ih.bind fun made => (Leads.pure _).after fun _ h => ?_
    simpa only [List.flatMap_cons, List.cons_append, List.nil_append, filterMap_id_cons,
      List.append_assoc] using h

theorem replaces_ifStat (arms : List (NodeRef × List NodeRef)) (elseBody : Option (List NodeRef)) :
    Replaces ((arms.flatMap (fun arm => arm.1 :: arm.2) ++ elseBody.getD []).filterMap id)
      (ifStat arms elseBody) := by
  intro rest
  rw [List.filterMap_append]
  have closing (made : List Arm) (elseBlock : NodeRef) :
      Leads (Builder.Layout · rest
          ((made.flatMap fun arm => [arm.cond, arm.block]).filterMap id ++ elseBlock.toList) [])
        (push (.ifElse made elseBlock))
        (fun ref builder => builder.Layout (rest ++ ref.toList) [] []) := by
    refine fun _ h => h.close ?_ rfl
    simp only [Form.children, Form.parts, List.filterMap_append, filterMap_id_cons,
      List.filterMap_nil, List.append_nil]
  refine Leads.after (Leads.bind (leads_arms arms) fun made => ?_) fun _ h => h.begin
  cases elseBody with
  | none => exact (closing made none).after fun _ h => by simpa using h
  | some body =>
    exact ((leads_wrap body).bind (closing made)).after fun _ h => by simpa using h

/-- Each call leaves its node in the place of its operands. -/
theorem replaces_make (construct : Construct) : Replaces construct.operands construct.make := by
  cases construct with
  | plain form => exact replaces_push (.refl _) fun _ _ => rfl
  | docOnly tags => exact replaces_docOnly tags
  | closure params variadic body => exact replaces_closure params variadic body
  | locals names exprs => exact replaces_locals names exprs
  | localFunction text func => exact replaces_localFunction text func
  | methodStat base method func => exact replaces_methodStat base method func
  | ifStat arms elseBody => exact replaces_ifStat arms elseBody
  | whileStat cond body => exact replaces_whileStat cond body
  | repeatStat body cond => exact replaces_repeatStat body cond
  | numericFor var start limit step body => exact replaces_numericFor var start limit step body
  | genericFor names exprs body => exact replaces_genericFor names exprs body
  | doStat body => exact replaces_doStat body

end BuildM

theorem Builder.layout_empty : Builder.empty.Layout [] [] [] := by
  have nowhere (i : Nat) : Tree.empty.node? (some i) = none := by simp [Tree.node?, Tree.empty]
  have unnamed (n : Nat) : ¬ Tree.empty.IsName n := by simp [Tree.IsName, Tree.form?, nowhere]
  have childless (m : Nat) : Tree.empty.children (some m) = [] := by
    simp [Tree.children, Tree.form?, nowhere]
  have arranged : Tree.empty.Arranged := by
    refine ⟨fun m less => absurd less (Nat.not_lt_zero m), fun n named => absurd named (unnamed n),
      fun m child mem => ?_, fun child m part => ?_, fun m child mem => ?_, fun m => ?_,
      fun m _ _ => ?_⟩
    · simp [childless] at mem
    · simp [Tree.PartOf, Tree.parent, nowhere] at part
    · simp [childless] at mem
    · simp [childless]
    · simp [childless]
  exact ⟨⟨rfl, arranged⟩, .nil,
    ⟨.nil, fun p mem => (by cases mem), fun n named => absurd named (unnamed n), trivial⟩,
    fun m n named => absurd named (unnamed n)⟩

theorem InSourceOrder.layout {builder : Builder} {pending : List Nat}
    (h : InSourceOrder builder pending) : builder.Layout pending [] [] := by
  induction h with
  | empty => exact Builder.layout_empty
  | make construct _ ih => exact BuildM.replaces_make construct _ _ ih
  | doc node tags _ ih => exact BuildM.leads_doc node tags _ ih

/-! ## Finished trees -/

/-- What the spans of a finished tree tell. -/
structure Tree.Nested (tree : Tree) : Prop extends tree.Arranged where
  rooted : ∃ root, tree.root = some root ∧ root < tree.size ∧
    ∀ n, tree.IsName n → tree.Under n root
  held : ∀ m n, tree.IsName n → m < tree.size →
    (tree.span (some m)).contains (tree.span (some n)).start → tree.Under n m ∨ tree.RunsInto m n

/-- A node around all that was made is the root of a finished tree. -/
theorem Builder.Layout.nested {builder : Builder} {root : Nat}
    (h : builder.Layout [root] [] []) : (builder.tree.setRoot (some root)).Nested := by
  have arranged := h.placed.arranged
  refine ⟨⟨arranged.stop, arranged.name, arranged.linked, arranged.listed, arranged.inner,
    arranged.once, arranged.block⟩, ⟨root, rfl, (h.pending.free root (by simp)).1, ?_⟩, ?_⟩
  · intro n named
    obtain ⟨q, mem, under⟩ := h.pending.cover n named
    cases List.mem_singleton.mp mem
    exact under
  · intro m n named less contains
    have start : (builder.tree.span (some n)).start = 2 * n := arranged.name n named
    have stop : (builder.tree.span (some m)).stop = 2 * m + 1 := arranged.stop m less
    have contains : (builder.tree.span (some m)).contains (builder.tree.span (some n)).start :=
      contains
    have bounds : (builder.tree.span (some m)).start ≤ (builder.tree.span (some n)).start ∧
        (builder.tree.span (some n)).start ≤ (builder.tree.span (some m)).stop := by
      simpa [Span.contains] using contains
    rw [start, stop] at bounds
    rcases h.held m n named (by omega) less bounds.1 with under | into | ⟨-, _, _, _, split, -⟩
    · exact .inl under
    · exact .inr into
    · simp at split

theorem Tree.Composed.nested {tree : Tree} (h : tree.Composed) : tree.Nested := by
  obtain ⟨builder, stmts, composed, rfl⟩ := h
  have chunk (block : NodeRef) : BuildM.Replaces block.toList (BuildM.push (.chunk block)) := by
    refine BuildM.replaces_push (.of_eq ?_) (by simp)
    simp only [Form.children, Form.parts, filterMap_id_cons, List.filterMap_nil, List.append_nil]
  have finished := (BuildM.replaces_block stmts []).bind fun block => chunk block []
  exact (finished builder composed.layout).nested

end LuaTyping
