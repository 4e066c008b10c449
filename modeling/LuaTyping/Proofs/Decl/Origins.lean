import LuaTyping.Proofs.Decl.Scopes
import LuaTyping.Proofs.Decl.Tables
import LuaTyping.Proofs.Tree.TextOrder

/-!
# Where declarations come from

Every declaration that stands at a node is there for one of three reasons: the node has a comment,
it is one of the names of a `local` statement, or it is a part of some other node, such as a field
of a table, a parameter or the target of an assignment. The walk records no others, whatever the
tree looks like. So where the only node around a name is an uncommented statement `local y = x`,
what is recorded for the name is known in full.
-/

set_option autoImplicit false

namespace LuaTyping

open Collect

/-- Why the walk declares something at the node `n`. -/
inductive Tree.Origin (tree : Tree) (n : Nat) (entry : Entry) : Prop
  | comment (commented : tree.doc? (some n) ≠ none)
  | localVar {stmt index : Nat} {names exprs : List NodeRef}
      (found : tree.form? (some stmt) = some (.localVars names exprs))
      (listed : names[index]? = some (some n)) (kind : entry.kind = .localVar)
      (initializer : entry.initializer = initializerAt tree exprs index)
      (undocumented : tree.doc? (some stmt) = none → entry.declared = none ∧ entry.overloads = [])
  | part {whole : Nat} {form : Form} (found : tree.form? (some whole) = some form)
      (part : some n ∈ form.parts) (other : ∀ names exprs, form ≠ .localVars names exprs)

/-- There is a reason for the declaration at its node. -/
def Tree.Explains (tree : Tree) (entry : Entry) : Prop :=
  ∀ n, entry.node = some n → tree.Origin n entry

/-- There is a reason for everything declared so far. -/
def Collector.Explained (tree : Tree) (c : Collector) : Prop :=
  ∀ d entry, c.table.entry? d = some entry → tree.Explains entry

/-- Something declared at a part of a node that is no `local` statement. -/
theorem Tree.explains_part {tree : Tree} {whole : NodeRef} {form : Form}
    (found : tree.form? whole = some form) (other : ∀ names exprs, form ≠ .localVars names exprs)
    {entry : Entry} (part : entry.node ∈ form.parts) : tree.Explains entry := by
  intro n is_node
  cases whole with
  | none => cases found
  | some m => exact .part found (is_node ▸ part) other

namespace Collect

variable {tree : Tree}

theorem explained_declare {c : Collector} (h : c.Explained tree) {entry : Entry}
    (explains : tree.Explains entry) : (declare entry c).2.Explained tree := by
  intro d known found
  have found : ScopeTable.entry? (c.table.declare entry) d = some known := found
  rw [ScopeTable.entry?_declare] at found
  split at found
  · cases found
    exact explains
  · exact h d known found

theorem Declares.explained {α : Type} {step : CollectM α} (h : Declares tree.Explains step) :
    Keeps (Collector.Explained tree) step :=
  h _ fun _ _ before _ => explained_declare before

theorem keeps_modify_explained {f : Collector → Collector} (same : ∀ c, (f c).table = c.table) :
    Keeps (Collector.Explained tree) (modify f : CollectM Unit) := by
  intro c h
  rw [snd_modify, Collector.Explained, same c]
  exact h

/-- A new declaration, with what is known of it added. -/
theorem keeps_newEntry_explained {α : Type} {kind : DeclKind} {name : String} {node : NodeRef}
    {more : Entry → Entry} {next : Nat → CollectM α}
    (explains : ∀ id scope, tree.Explains (more (.plain id kind name scope node (tree.span node))))
    (then_ : ∀ decl, Keeps (Collector.Explained tree) (next decl)) :
    Keeps (Collector.Explained tree)
      (newEntry tree kind name node >>= fun entry => declare (more entry) >>= next) :=
  fun c h => then_ _ _ (explained_declare h (explains _ c.scope))

theorem keeps_inScope_explained (kind : ScopeKind) (span : Span) (function : NodeRef)
    {body : CollectM Unit} (inside : Keeps (Collector.Explained tree) body) :
    Keeps (Collector.Explained tree) (inScope kind span function body) := by
  refine Keeps.bind (fun c h => ?_) fun _ => inside.bind fun _ c h => ?_
  · exact h
  · rw [closeScope, snd_modify]
    split <;> exact h

/-! ## Statements -/

section Walk

variable {visit : Visit → CollectM Unit}
  (visits : ∀ v, Keeps (Collector.Explained tree) (visit v))

/-- The fields of a table constructor are parts of it. -/
theorem explained_declareFields (owner : Owner) (expr : NodeRef) :
    Keeps (Collector.Explained tree) (declareFields tree owner expr) := by
  refine ((declares_declareFields owner expr).mono fun entry declared => ?_).explained
  obtain ⟨-, fields, found, mem⟩ := declared
  exact Tree.explains_part found (by simp) mem

theorem explained_declareGlobal {form : Form} {stmt target : NodeRef}
    (found : tree.form? stmt = some form) (other : ∀ names exprs, form ≠ .localVars names exprs)
    (part : target ∈ form.parts) (name : String) (initializer : Option Initializer)
    (doc : Option DocComment) (className : Option String) :
    Keeps (Collector.Explained tree)
      (declareGlobal tree stmt target name initializer doc className) := by
  refine ((declares_declareGlobal stmt target name initializer doc className).mono
    fun entry declared => ?_).explained
  exact Tree.explains_part found other (declared.2 ▸ part)

/-- What the comment on a node declares. -/
theorem explained_declareTags (node : NodeRef) {doc : DocComment}
    (commented : tree.doc? node = some doc) :
    Keeps (Collector.Explained tree) (declareTags tree node doc) := by
  refine ((declares_declareTags_go node doc none doc.tags).mono fun entry declared => ?_).explained
  intro n is_node
  rw [declared.2] at is_node
  exact .comment (by simp [← is_node, commented])

include visits

theorem explained_visitBlock (kind : ScopeKind) (block : NodeRef) :
    Keeps (Collector.Explained tree) (visitBlock tree visit kind block) := by
  rw [visitBlock]
  split
  · exact .pure ()
  · exact keeps_inScope_explained kind _ none (visits _)

theorem explained_visitExprs (exprs : List NodeRef) :
    Keeps (Collector.Explained tree) (visitExprs visit exprs) :=
  keeps_visitExprs (fun _ _ => visits _) exprs

theorem explained_visitDocumented (exprs : List NodeRef) (doc : Option DocComment) :
    Keeps (Collector.Explained tree) (visitDocumented visit exprs doc) :=
  keeps_visitDocumented (fun _ _ => visits _) exprs doc

theorem explained_visitClosure (closure : NodeRef) (doc : Option DocComment)
    (owner : Option Owner) (method : Bool) :
    Keeps (Collector.Explained tree) (visitClosure tree visit closure doc owner method) := by
  unfold visitClosure
  split
  · rename_i index params variadic body found
    have declared_self (generics : List String) (span : Span) :
        Keeps (Collector.Explained tree) (declareSelf doc generics owner span) := by
      refine ((declares_declareSelf doc generics owner span).mono
        fun entry declared => ?_).explained
      exact fun n is_node => by cases declared.2.symm.trans is_node
    have declared_params (generics : List String) (start : Nat) :
        Keeps (Collector.Explained tree) (declareParams tree params doc generics start) := by
      refine ((declares_declareParams params doc generics start).mono
        fun entry declared => ?_).explained
      exact Tree.explains_part found (by simp) (List.mem_append_left _ declared.2)
    have inside {f f' : Collector → Collector} (same : ∀ c, (f c).table = c.table)
        (same' : ∀ c, (f' c).table = c.table) : Keeps (Collector.Explained tree) (do
          modify f
          visit (.stmts body)
          modify f' : CollectM Unit) :=
      (keeps_modify_explained same).bind fun _ => (visits _).bind fun _ =>
        keeps_modify_explained same'
    refine keeps_inScope_explained .function _ _ ?_
    cases method with
    | true =>
      refine (declared_self _ _).bind fun _ => (Keeps.pure _).bind fun self => ?_
      exact (declared_params _ _).bind fun named => inside (fun _ => rfl) fun _ => rfl
    | false =>
      refine (Keeps.pure _).bind fun self => ?_
      exact (declared_params _ _).bind fun named => inside (fun _ => rfl) fun _ => rfl
  · exact .pure ()

/-- The names of a `local` statement, each with its initialiser, and the fields of the tables it
binds. -/
theorem explained_visitLocals {m : Nat} {names exprs : List NodeRef}
    (found : tree.form? (some m) = some (.localVars names exprs)) :
    Keeps (Collector.Explained tree)
      (visitLocals tree visit (some m) names exprs (tree.doc? (some m))) := by
  refine Keeps.bind (.mapM fun name mem => ?_) fun bound =>
    Keeps.bind (.forIn fun decl _ => ?_) fun _ => explained_visitDocumented visits exprs _
  · obtain ⟨node, index⟩ := name
    have listed : names[index]? = some node := List.mem_zipIdx_iff_getElem?.mp mem
    dsimp only
    split
    · exact .pure none
    · refine keeps_newEntry_explained (fun id scope => ?_) fun _ => .pure _
      split <;> intro n is_node
      · simp only [documented_node, Entry.plain] at is_node
        refine .localVar found (is_node ▸ listed) (by simp [Entry.plain])
          ?_ fun none => ?_
        · cases tree.doc? (some m) <;> rfl
        · rw [none]
          exact ⟨rfl, rfl⟩
      · exact .localVar found (listed.trans (congrArg some is_node)) rfl rfl fun _ => ⟨rfl, rfl⟩
  · obtain ⟨index, decl⟩ := decl
    dsimp only
    split
    · exact (explained_declareFields _ _).bind fun _ => .pure _
    · exact .pure _

theorem explained_visitLocalFunction {stmt node func : NodeRef}
    (found : tree.form? stmt = some (.localFunction node func)) (doc : Option DocComment) :
    Keeps (Collector.Explained tree) (visitLocalFunction tree visit node func doc) := by
  have closure := explained_visitClosure visits func doc none false
  rw [visitLocalFunction]
  split
  · refine keeps_newEntry_explained (fun _ _ => ?_) fun _ => closure
    exact Tree.explains_part found (by simp) (by simp [Form.parts, Entry.plain])
  · exact closure

theorem explained_visitFunctionStat {stmt target func : NodeRef} {method : Bool}
    (found : tree.form? stmt = some (.functionStat target method func)) (doc : Option DocComment) :
    Keeps (Collector.Explained tree)
      (visitFunctionStat tree visit stmt target method func doc) := by
  have closure (owner : Option Owner) :=
    explained_visitClosure visits func doc owner method
  simp only [visitFunctionStat]
  split
  · exact (explained_declareGlobal found (by simp) (by simp [Form.parts]) _ _ _ _).bind
      fun _ => closure _
  · refine (keeps_ownerOf _).bind fun owner => ?_
    split
    · refine keeps_newEntry_explained (fun _ _ => ?_) fun _ => closure _
      exact Tree.explains_part found (by simp) (by simp [Form.parts, Entry.plain])
    · exact closure _
  · exact (visits _).bind fun _ => closure _

theorem explained_visitTarget {stmt target : NodeRef} {targets exprs : List NodeRef}
    (found : tree.form? stmt = some (.assign targets exprs)) (mem : target ∈ targets)
    (doc : Option DocComment) (index : Nat) :
    Keeps (Collector.Explained tree) (visitTarget tree visit stmt exprs doc target index) := by
  have part : target ∈ (Form.assign targets exprs).parts := List.mem_append_left _ mem
  simp only [visitTarget]
  split
  · refine (explained_declareGlobal found (by simp) part _ _ _ _).bind fun made => ?_
    split
    · split
      · exact explained_declareFields _ _
      · exact .pure ()
    · exact .pure ()
  · refine (keeps_ownerOf _).bind fun owner => ?_
    split
    · exact visits _
    · refine keeps_newEntry_explained (fun _ _ => ?_) fun _ => .pure _
      exact Tree.explains_part found (by simp) (by simpa [Entry.plain] using part)
  · exact visits _

theorem explained_visitForm {m : Nat} {form : Form} (found : tree.form? (some m) = some form) :
    Keeps (Collector.Explained tree)
      (visitForm tree visit (some m) (tree.doc? (some m)) form) := by
  have loop (body : CollectM Unit) (inside : Keeps (Collector.Explained tree) body) :
      Keeps (Collector.Explained tree) (inScope .loop (tree.span (some m)) none body) :=
    keeps_inScope_explained .loop (tree.span (some m)) none inside
  have loopVar {node : NodeRef} (part : node ∈ form.parts)
      (other : ∀ names exprs, form ≠ .localVars names exprs) (expr : NodeRef) (index : Nat)
      (shape : InitShape) (visibleFrom : Nat) : Keeps (Collector.Explained tree)
        (declareLoopVar tree node expr index shape visibleFrom) := by
    refine ((declares_declareLoopVar node expr index shape visibleFrom).mono
      fun entry declared => ?_).explained
    exact Tree.explains_part found other (declared.2 ▸ part)
  cases form with
  | localVars names exprs => exact explained_visitLocals visits found
  | localFunction name func => exact explained_visitLocalFunction visits found _
  | functionStat target method func => exact explained_visitFunctionStat visits found _
  | assign targets exprs =>
    refine (Keeps.forM fun target mem => ?_).bind fun _ => explained_visitDocumented visits exprs _
    exact explained_visitTarget visits found (List.fst_mem_of_mem_zipIdx mem) _ _
  | ret exprs =>
    refine (keeps_modify_explained fun c => ?_).bind fun _ => explained_visitExprs visits exprs
    split <;> rfl
  | ifElse arms elseBlock =>
    exact (Keeps.forM fun arm _ => (visits _).bind fun _ => explained_visitBlock visits _ _).bind
      fun _ => explained_visitBlock visits _ _
  | whileLoop cond block => exact (visits _).bind fun _ => explained_visitBlock visits _ _
  | repeatLoop block cond => exact loop _ ((visits _).bind fun _ => visits _)
  | numericFor var start limit step block =>
    refine (explained_visitExprs visits _).bind fun _ => loop _ (Keeps.bind ?_ fun _ => visits _)
    exact loopVar (by simp [Form.parts]) (by simp) _ _ _ _
  | genericFor names exprs block =>
    refine (explained_visitExprs visits _).bind fun _ => loop _ (Keeps.bind ?_ fun _ => visits _)
    refine .forM fun name mem => loopVar ?_ (by simp) _ _ _ _
    simp [Form.parts, List.fst_mem_of_mem_zipIdx mem]
  | doBlock block | block stmts => exact explained_visitBlock visits _ _
  | breakStat | docOnly => exact .pure ()
  | _ => exact visits _

theorem explained_visitStep (v : Visit) :
    Keeps (Collector.Explained tree) (visitStep tree visit v) := by
  cases v with
  | stmt node =>
    cases node with
    | none => exact .pure ()
    | some m =>
      simp only [visitStep]
      split
      · exact .pure ()
      · rename_i form found
        have statement := explained_visitForm visits found
        split
        · rename_i doc commented
          exact (explained_declareTags _ commented).bind fun _ => commented ▸ statement
        · exact statement
  | stmts block =>
    simp only [visitStep]
    split
    · exact .forM fun stmt _ => visits _
    · exact visits _
    · exact .pure ()
  | expr node doc =>
    simp only [visitStep, visitExpr]
    split
    · exact .pure ()
    · exact explained_visitClosure visits _ _ _ _
    · refine .forM fun field _ => ?_
      split
      · exact (explained_visitExprs visits _).bind fun _ => visits _
      · exact .pure ()
    · exact .forM fun child _ => visits _

end Walk

theorem explained_visitWithin (depth : Nat) (v : Visit) :
    Keeps (Collector.Explained tree) (visitWithin tree depth v) := by
  induction depth generalizing v with
  | zero => exact .pure ()
  | succ depth ih => exact explained_visitStep ih v

/-- There is a reason for everything that the walk of a tree declares. -/
theorem explained_run (tree : Tree) : (run tree).Explained tree := by
  have empty : start.Explained tree := by
    intro d entry found
    simp [start, ScopeTable.entry?, ScopeTable.empty] at found
  rw [run]
  split
  · exact keeps_inScope_explained .file _ none (explained_visitWithin _ _) _ empty
  · exact empty

end Collect

/-! ## Copies of a variable -/

/-- The statement `local y = x` without a comment, and none of its parts is a part of another node
or has a comment. -/
structure Tree.Copies (tree : Tree) (stmt target source : Nat) (name : String) : Prop where
  form : tree.form? (some stmt) = some (.localVars [some target] [some source])
  plain : tree.form? (some source) = some (.name name)
  uncommented : ∀ n ∈ [stmt, target, source], tree.doc? (some n) = none
  once : ∀ n ∈ [target, source], ∀ whole, tree.ChildOf n whole → whole = stmt
  apart : target ≠ source

/-- Where no node is twice a part of others, the form of the statement is enough. -/
theorem Tree.Branching.copies {tree : Tree} (branching : tree.Branching)
    {stmt target source : Nat} {name : String}
    (form : tree.form? (some stmt) = some (.localVars [some target] [some source]))
    (plain : tree.form? (some source) = some (.name name))
    (uncommented : ∀ n ∈ [stmt, target, source], tree.doc? (some n) = none) :
    tree.Copies stmt target source name where
  form := form
  plain := plain
  uncommented := uncommented
  once n mem whole part := by
    have part' : tree.ChildOf n stmt :=
      (Tree.childOf_iff form).mpr (by simpa [Form.parts] using mem)
    exact branching.unique n whole stmt part part'
  apart := by
    have children : tree.children (some stmt) = [target, source] := by
      simp [Tree.children, form, Form.children, Form.parts]
    simpa [children] using branching.once stmt

namespace FileDecls

variable {file : FileId} {tree : Tree} {stmt target source d : Nat} {name : String}

theorem entry?_of_declForNode? {n : Nat}
    (declared : (ofTree file tree).declForNode? (some n) = some d) :
    ∃ entry, entry? (ofTree file tree) d = some entry ∧ entry.node = some n :=
  (((Collect.tabulated_run tree).byNode n d).mp declared).here

/-- All that is recorded at a name comes from the one statement around it. -/
theorem origin_of_declForNode? {n : Nat} (uncommented : tree.doc? (some n) = none)
    (found : tree.form? (some stmt) = some (.localVars [some target] [some source]))
    (once : ∀ whole, tree.ChildOf n whole → whole = stmt)
    (declared : (ofTree file tree).declForNode? (some n) = some d) :
    ∃ entry, entry? (ofTree file tree) d = some entry ∧ n = target ∧ entry.kind = .localVar ∧
      entry.initializer = initializerAt tree [some source] 0 ∧
      (tree.doc? (some stmt) = none → entry.declared = none ∧ entry.overloads = []) := by
  obtain ⟨entry, is_entry, is_node⟩ := entry?_of_declForNode? declared
  refine ⟨entry, is_entry, ?_⟩
  cases Collect.explained_run tree d entry is_entry n is_node with
  | comment commented => exact absurd uncommented commented
  | part found' part other =>
    cases once _ ((Tree.childOf_iff found').mpr part)
    cases found.symm.trans found'
    exact absurd rfl (other _ _)
  | @localVar stmt' index names exprs found' listed kind initializer undocumented =>
    have part : some n ∈ (Form.localVars names exprs).parts :=
      List.mem_append_left _ (List.mem_of_getElem? listed)
    cases once _ ((Tree.childOf_iff found').mpr part)
    cases found.symm.trans found'
    -- there is one name, so it is the first
    cases index with
    | zero =>
      cases listed
      exact ⟨rfl, kind, initializer, undocumented⟩
    | succ index => cases listed

/-- The variable of `local y = x` is recorded with the name as its initialiser, and with no type. -/
theorem entry_of_copies (copies : tree.Copies stmt target source name)
    (declared : (ofTree file tree).declForNode? (some target) = some d) :
    ∃ entry, entry? (ofTree file tree) d = some entry ∧ entry.kind = .localVar ∧
      entry.declared = none ∧ entry.overloads = [] ∧
      entry.initializer = some ⟨some source, 0, .name name⟩ := by
  obtain ⟨entry, is_entry, -, kind, initializer, undocumented⟩ := origin_of_declForNode?
    (copies.uncommented target (by simp)) copies.form (copies.once target (by simp)) declared
  obtain ⟨no_type, no_overloads⟩ := undocumented (copies.uncommented stmt (by simp))
  refine ⟨entry, is_entry, kind, no_type, no_overloads, initializer.trans ?_⟩
  simp [initializerAt, shapeOf, shapeWithin, copies.plain]

/-- The name that is copied declares nothing. -/
theorem declForNode?_source (copies : tree.Copies stmt target source name) :
    (ofTree file tree).declForNode? (some source) = none := by
  refine Option.eq_none_iff_forall_ne_some.mpr fun d declared => ?_
  obtain ⟨entry, -, same, -⟩ := origin_of_declForNode?
    (copies.uncommented source (by simp)) copies.form (copies.once source (by simp)) declared
  exact copies.apart same.symm

end FileDecls

end LuaTyping
