import LuaTyping.Decl.Collect

/-!
# Steps of the walk

The walk that collects declarations changes its state in few ways: it declares something in the
scope it is in, notes something about functions, and goes into a scope and out of it again. So a
property that lasts through each of these (`Lasting`) is kept by every part of the walk. Only how a
block is walked in a scope of its own is left to the property, for there it may matter which node
the block is.

A property may refer to something outside the state, such as the state in which a part of the walk
began. It is then a family, and inside a scope another member of it counts than around it.
-/

set_option autoImplicit false

namespace LuaTyping

/-- The declaration is one of a parameter. -/
def ScopeTable.IsParam (table : ScopeTable) (decl : Nat) : Prop :=
  ∃ entry, table.entry? decl = some entry ∧ entry.kind = .parameter

/-- This may be noted of the function at the node: its parameters are declared as such, and whether
control can reach the end of its body is as the text has it. -/
structure ScopeTable.Describes (table : ScopeTable) (tree : Tree) (n : Nat) (info : FunctionInfo) :
    Prop where
  params : ∀ d ∈ info.params, table.IsParam d
  fallsThrough : ∃ params variadic body,
    tree.form? (some n) = some (.closure params variadic body) ∧
      info.fallsThrough = !Collect.blockReturns tree body

/-- The declaration carries the next number and stands in the scope that the walk is in. -/
structure Entry.Fresh (entry : Entry) (c : Collector) : Prop where
  id : entry.id = c.table.entries.size
  scope : entry.scope = c.scope

namespace Collector

/-- The second state differs from the first in what is noted of functions and in which the walk is
in. What is noted of a function describes it, or differs from what was noted before only in the
return statements. -/
structure Notes (c : Collector) (tree : Tree) (c' : Collector) : Prop where
  table : c'.table = c.table
  tables : c'.tables = c.tables
  scope : c'.scope = c.scope
  functions : ∀ (n : Nat) info, c'.functions[n]? = some info →
    (∃ before, c.functions[n]? = some before ∧ info.params = before.params ∧
      info.fallsThrough = before.fallsThrough) ∨ c.table.Describes tree n info

namespace Notes

variable {tree : Tree}

theorem refl (c : Collector) : c.Notes tree c :=
  ⟨rfl, rfl, rfl, fun _ info found => .inl ⟨info, found, rfl, rfl⟩⟩

theorem closures (c : Collector) (inside : List Nat) :
    c.Notes tree { c with closures := inside } :=
  ⟨rfl, rfl, rfl, fun _ info found => .inl ⟨info, found, rfl, rfl⟩⟩

theorem modify (c : Collector) (closure : Nat) {f : FunctionInfo → FunctionInfo}
    (same : ∀ info, (f info).params = info.params ∧ (f info).fallsThrough = info.fallsThrough) :
    c.Notes tree { c with functions := c.functions.modify closure f } := by
  refine ⟨rfl, rfl, rfl, fun n info found => .inl ?_⟩
  rw [Std.HashMap.getElem?_modify] at found
  split at found
  · obtain ⟨before, was, rfl⟩ := Option.map_eq_some_iff.mp found
    rename_i here
    exact ⟨before, beq_iff_eq.mp here ▸ was, same before⟩
  · exact ⟨info, found, rfl, rfl⟩

theorem insert (c : Collector) (index : Nat) (inside : List Nat) {info : FunctionInfo}
    (describes : c.table.Describes tree index info) :
    c.Notes tree { c with functions := c.functions.insert index info, closures := inside } := by
  refine ⟨rfl, rfl, rfl, fun n found_info found => ?_⟩
  rw [Std.HashMap.getElem?_insert] at found
  split at found
  · cases found
    rename_i here
    exact .inr (beq_iff_eq.mp here ▸ describes)
  · exact .inl ⟨found_info, found, rfl, rfl⟩

end Notes

end Collector

namespace Collect

section Keeping

variable {tree : Tree} {holds : Collector → Prop} {α β : Type}

/-- The step keeps what holds of the walk. -/
def Keeps (holds : Collector → Prop) (step : CollectM α) : Prop := ∀ c, holds c → holds (step c).2

namespace Keeps

theorem pure (a : α) : Keeps holds (Pure.pure a : CollectM α) := fun _ h => h

theorem read : Keeps holds (get : CollectM Collector) := fun _ h => h

theorem bind {step : CollectM α} {next : α → CollectM β} (first : Keeps holds step)
    (then_ : ∀ a, Keeps holds (next a)) : Keeps holds (step >>= next) :=
  fun c h => then_ _ _ (first c h)

theorem forM {list : List α} {step : α → CollectM Unit} (each : ∀ a ∈ list, Keeps holds (step a)) :
    Keeps holds (list.forM step) := by
  induction list with
  | nil => exact pure ()
  | cons a rest ih =>
    exact (each a List.mem_cons_self).bind fun _ =>
      ih fun b mem => each b (List.mem_cons_of_mem a mem)

theorem mapM {list : List α} {step : α → CollectM β} (each : ∀ a ∈ list, Keeps holds (step a)) :
    Keeps holds (list.mapM step) := by
  induction list with
  | nil => exact pure []
  | cons a rest ih =>
    rw [List.mapM_cons]
    exact (each a List.mem_cons_self).bind fun _ =>
      (ih fun b mem => each b (List.mem_cons_of_mem a mem)).bind fun _ => pure _

theorem forIn {list : List α} {step : α → PUnit → CollectM (ForInStep PUnit)}
    (each : ∀ a ∈ list, Keeps holds (step a ⟨⟩)) :
    Keeps holds (ForIn.forIn list PUnit.unit step : CollectM PUnit) := by
  induction list with
  | nil => exact pure PUnit.unit
  | cons a rest ih =>
    rw [List.forIn_cons]
    refine (each a List.mem_cons_self).bind fun next => ?_
    cases next with
    | done _ => exact pure _
    | yield _ => exact ih fun b mem => each b (List.mem_cons_of_mem a mem)

/-- What follows a step may rest on what the step gives. -/
theorem bind_of (given : α → Collector → Prop) {step : CollectM α} {next : α → CollectM β}
    (first : Keeps holds step) (gives : ∀ c, given (step c).1 (step c).2)
    (then_ : ∀ a c, holds c → given a c → holds (next a c).2) : Keeps holds (step >>= next) :=
  fun c h => then_ _ _ (first c h) (gives c)

end Keeps

/-- What each step gives, if later steps keep it, is so after all of them. -/
theorem forall_mem_mapM (given : β → Collector → Prop) {step : α → CollectM β}
    (keeps : ∀ b a, Keeps (given b) (step a)) (gives : ∀ a c, given (step a c).1 (step a c).2)
    (list : List α) (c : Collector) :
    ∀ b ∈ (list.mapM step c).1, given b (list.mapM step c).2 := by
  induction list generalizing c with
  | nil => exact fun _ mem => nomatch mem
  | cons a rest ih =>
    have split : (a :: rest).mapM step c
        = ((step a c).1 :: (rest.mapM step (step a c).2).1, (rest.mapM step (step a c).2).2) := by
      rw [List.mapM_cons]
      rfl
    rw [split]
    refine List.forall_mem_cons.mpr ⟨?_, ih (step a c).2⟩
    exact Keeps.mapM (fun later _ => keeps _ later) _ (gives a c)

theorem keeps_localBinding (name : String) (node : NodeRef) :
    Keeps holds (localBinding? tree name node) := Keeps.read.bind fun _ => .pure _

theorem keeps_ownerOf (base : NodeRef) : Keeps holds (ownerOf? tree base) := by
  rw [ownerOf?]
  split
  · exact .pure none
  · refine Keeps.read.bind fun c => (keeps_localBinding _ base).bind fun found => ?_
    cases found <;> exact .pure _

theorem keeps_visitExprs {visit : Visit → CollectM Unit}
    (expr : ∀ node doc, Keeps holds (visit (.expr node doc))) (exprs : List NodeRef) :
    Keeps holds (visitExprs visit exprs) :=
  .forM fun node _ => expr node none

theorem keeps_visitDocumented {visit : Visit → CollectM Unit}
    (expr : ∀ node doc, Keeps holds (visit (.expr node doc))) (exprs : List NodeRef)
    (doc : Option DocComment) : Keeps holds (visitDocumented visit exprs doc) := by
  cases exprs with
  | nil => exact .pure ()
  | cons first rest => exact (expr first doc).bind fun _ => keeps_visitExprs expr rest

theorem snd_modify (f : Collector → Collector) (c : Collector) :
    ((modify f : CollectM Unit) c).2 = f c := rfl

theorem closeScope_of_scope? {c : Collector} {scope : Scope}
    (found : c.table.scope? c.scope = some scope) :
    (closeScope c).2 = { c with scope := scope.parent } := by
  rw [closeScope, snd_modify, found]

theorem table_closeScope (c : Collector) : (closeScope c).2.table = c.table := by
  rw [closeScope, snd_modify]
  cases c.table.scope? c.scope <;> rfl

end Keeping

/-! ## Declaring -/

end Collect

/-- The declaration is not one of a global, and no reference by name leads to it. -/
structure Entry.Hidden (entry : Entry) : Prop where
  not_global : entry.kind ≠ .global
  unbound : ∀ name, ¬ entry.binds name

/-- A declaration of a kind that scopes do not bind. -/
theorem Entry.Hidden.of_kind {entry : Entry} (not_global : entry.kind ≠ .global)
    (other : entry.kind.isLexical = false) : entry.Hidden :=
  ⟨not_global, fun name => by simp [binds, other]⟩

/-- A member of a class or table. -/
theorem Entry.Hidden.of_isMember {entry : Entry} (member : entry.isMember) : entry.Hidden := by
  refine ⟨fun global => ?_, fun name => by simp [binds, member]⟩
  simp [isMember, DeclKind.isMember, global] at member

namespace Collect

section Documented

variable (entry : Entry) (doc : Option DocComment) (className : Option String)

@[simp]
theorem documented_id : (documented entry doc className).id = entry.id := by
  cases doc <;> rfl

@[simp]
theorem documented_scope : (documented entry doc className).scope = entry.scope := by
  cases doc <;> rfl

theorem documented_stays : (documented entry doc className).id = entry.id ∧
    (documented entry doc className).scope = entry.scope :=
  ⟨documented_id entry doc className, documented_scope entry doc className⟩

@[simp]
theorem documented_kind : (documented entry doc className).kind = entry.kind := by
  cases doc <;> rfl

@[simp]
theorem documented_name : (documented entry doc className).name = entry.name := by
  cases doc <;> rfl

@[simp]
theorem documented_node : (documented entry doc className).node = entry.node := by
  cases doc <;> rfl

@[simp]
theorem documented_owner : (documented entry doc className).owner = entry.owner := by
  cases doc <;> rfl

@[simp]
theorem documented_hoisted : (documented entry doc className).hoisted = entry.hoisted := by
  cases doc <;> rfl

@[simp]
theorem documented_visibleFrom :
    (documented entry doc className).visibleFrom = entry.visibleFrom := by
  cases doc <;> rfl

end Documented

section Declaring

variable {tree : Tree} {ok ok' : Entry → Prop} {α β : Type}

/-- The step does nothing but declare, in the scope the walk is in, what is `ok`. -/
def Declares (ok : Entry → Prop) (step : CollectM α) : Prop :=
  ∀ holds : Collector → Prop,
    (∀ c entry, holds c → entry.Fresh c → ok entry → holds (declare entry c).2) →
    Keeps holds step

namespace Declares

theorem mono {step : CollectM α} (h : Declares ok step) (imp : ∀ entry, ok entry → ok' entry) :
    Declares ok' step :=
  fun holds declare => h holds fun c entry before fresh is_ok =>
    declare c entry before fresh (imp entry is_ok)

theorem pure (a : α) : Declares ok (Pure.pure a : CollectM α) := fun _ _ => .pure a

theorem bind {step : CollectM α} {next : α → CollectM β} (first : Declares ok step)
    (then_ : ∀ a, Declares ok (next a)) : Declares ok (step >>= next) :=
  fun holds declare => (first holds declare).bind fun a => then_ a holds declare

theorem forM {list : List α} {step : α → CollectM Unit} (each : ∀ a ∈ list, Declares ok (step a)) :
    Declares ok (list.forM step) :=
  fun holds declare => .forM fun a mem => each a mem holds declare

theorem mapM {list : List α} {step : α → CollectM β} (each : ∀ a ∈ list, Declares ok (step a)) :
    Declares ok (list.mapM step) :=
  fun holds declare => .mapM fun a mem => each a mem holds declare

theorem forIn {list : List α} {step : α → PUnit → CollectM (ForInStep PUnit)}
    (each : ∀ a ∈ list, Declares ok (step a ⟨⟩)) :
    Declares ok (ForIn.forIn list PUnit.unit step : CollectM PUnit) :=
  fun holds declare => .forIn fun a mem => each a mem holds declare

/-- A new declaration, with what is known of it added. -/
theorem new {kind : DeclKind} {name : String} {node : NodeRef} {more : Entry → Entry}
    {next : Entry → Nat → CollectM α} (then_ : ∀ entry decl, Declares ok (next entry decl))
    (same : ∀ entry, (more entry).id = entry.id ∧ (more entry).scope = entry.scope)
    (is_ok : ∀ id scope, ok (more (.plain id kind name scope node (tree.span node)))) :
    Declares ok
      (newEntry tree kind name node >>= fun entry => declare (more entry) >>= next entry) :=
  fun holds declare c h =>
    then_ _ _ holds declare _ (declare c _ h ⟨(same _).1, (same _).2⟩ (is_ok _ c.scope))

end Declares

theorem declares_ownerOf (base : NodeRef) : Declares ok (ownerOf? tree base) :=
  fun _ _ => keeps_ownerOf base

theorem declares_declareTags_go (stmt : NodeRef) (doc : DocComment) (className : Option String)
    (tags : List Tag) :
    Declares (fun entry => entry.Hidden ∧ entry.node = stmt)
      (declareTags.go tree stmt doc className tags) := by
  induction tags generalizing className with
  | nil => exact .pure ()
  | cons tag rest ih =>
    cases tag with
    | classTag name supers =>
      rw [declareTags.go]
      split
      · exact ih className
      · exact .new (fun _ _ => ih _) (fun _ => ⟨rfl, rfl⟩) fun _ _ => ⟨.of_kind nofun rfl, rfl⟩
    | fieldTag visibility name ty =>
      cases className with
      | none => exact ih none
      | some owner =>
        simp only [declareTags.go]
        split
        · exact .new (fun _ _ => ih _) (fun _ => ⟨rfl, rfl⟩) fun _ _ => ⟨.of_isMember rfl, rfl⟩
        · exact ih _
    | aliasTag name generics ty =>
      simp only [declareTags.go]
      split
      · exact .new (fun _ _ => ih _) (fun _ => ⟨rfl, rfl⟩) fun _ _ => ⟨.of_kind nofun rfl, rfl⟩
      · exact ih _
    | _ => exact ih className

theorem declares_declareFields (owner : Owner) (expr : NodeRef) :
    Declares (fun entry => entry.Hidden ∧
        ∃ fields, tree.form? expr = some (.table fields) ∧ entry.node ∈ fields)
      (declareFields tree owner expr) := by
  rw [declareFields]
  split
  · rename_i fields found
    refine .forIn fun field mem => ?_
    split
    · refine .new (fun _ _ => .pure _) (fun _ => documented_stays _ _ _) fun _ _ => ?_
      refine ⟨Entry.Hidden.of_isMember ?_, fields, found, by simpa [Entry.plain] using mem⟩
      simp only [Entry.isMember, documented_kind, documented_owner, Entry.plain]
      split <;> rfl
    · exact .pure _
  · exact .pure ()

theorem declares_declareLoopVar (node expr : NodeRef) (valueIndex : Nat) (shape : InitShape)
    (visibleFrom : Nat) :
    Declares (fun entry => entry.kind = .localVar ∧ entry.node = node)
      (declareLoopVar tree node expr valueIndex shape visibleFrom) := by
  rw [declareLoopVar]
  split
  · exact .pure ()
  · exact .new (fun _ _ => .pure _) (fun _ => ⟨rfl, rfl⟩) fun _ _ => ⟨rfl, rfl⟩

theorem declares_declareParams (params : List NodeRef) (doc : Option DocComment)
    (generics : List String) (visibleFrom : Nat) :
    Declares (fun entry => entry.kind = .parameter ∧ entry.node ∈ params)
      (declareParams tree params doc generics visibleFrom) := by
  refine (Declares.mapM fun param mem => ?_).bind fun _ => .pure _
  split
  · exact .pure _
  · exact .new (fun _ _ => .pure _) (fun _ => ⟨rfl, rfl⟩) fun _ _ => ⟨rfl, mem⟩

theorem declares_declareSelf (doc : Option DocComment) (generics : List String)
    (owner : Option Owner) (span : Span) :
    Declares (fun entry => entry.kind = .parameter ∧ entry.node = none)
      (declareSelf doc generics owner span) :=
  fun _ declare c h => declare c _ h ⟨rfl, rfl⟩ ⟨rfl, rfl⟩

theorem declares_declareGlobal (stmt target : NodeRef) (name : String)
    (initializer : Option Initializer) (doc : Option DocComment) (className : Option String) :
    Declares (fun entry => entry.kind = .global ∧ entry.node = target)
      (declareGlobal tree stmt target name initializer doc className) := by
  refine Declares.bind (fun _ _ => keeps_localBinding name target) fun found => ?_
  cases found with
  | some _ => exact .pure false
  | none =>
    refine .new (fun _ _ => .pure _) (fun _ => documented_stays _ _ _) fun _ _ => ?_
    simp [Entry.plain]

end Declaring

theorem declareNew_bind {tree : Tree} {kind : DeclKind} {name : String} {node : NodeRef}
    {more : Entry → Entry} {α : Type} (next : CollectM α) :
    (newEntry tree kind name node >>= fun entry => declare (more entry) >>= fun _ => next)
      = (newEntry tree kind name node >>= fun entry => declare (more entry) >>= fun _ => pure ())
        >>= fun _ => next := rfl

/-! ## What is declared before the parts of a statement are walked -/

section Walk

variable (tree : Tree) (visit : Visit → CollectM Unit)

/-- The variables of `local a, b = e1, e2` are visible from the end of the statement. -/
theorem visitLocals_eq (stmt : NodeRef) (names exprs : List NodeRef) (doc : Option DocComment) :
    ∃ declarations : CollectM Unit,
      Declares (fun entry => entry.Hidden ∨ entry.kind = .localVar ∧ entry.hoisted = false ∧
        entry.visibleFrom = (tree.span stmt).stop) declarations ∧
      visitLocals tree visit stmt names exprs doc
        = declarations >>= fun _ => visitDocumented visit exprs doc := by
  refine ⟨_, Declares.bind (.mapM fun name _ => ?_) fun bound => .forIn fun decl _ => ?_,
    (bind_assoc _ _ _).symm⟩
  · obtain ⟨node, index⟩ := name
    dsimp only
    split
    · exact .pure none
    · refine .new (fun _ _ => .pure _) (fun _ => ?_) fun _ _ => .inr ?_
      · split <;> simp
      · split <;> simp [Entry.plain]
  · obtain ⟨index, decl⟩ := decl
    dsimp only
    split
    · refine ((declares_declareFields _ _).mono fun _ is_ok => ?_).bind fun _ => .pure _
      exact .inl is_ok.1
    · exact .pure _

/-- The function of `local function name() end` is bound to the name. -/
theorem visitLocalFunction_eq (node func : NodeRef) (doc : Option DocComment) :
    ∃ declarations : CollectM Unit,
      Declares (fun entry => entry.kind = .function ∧ tree.nameText? node = some entry.name)
        declarations ∧
      visitLocalFunction tree visit node func doc
        = declarations >>= fun _ => visitClosure tree visit func doc none false := by
  rw [visitLocalFunction]
  cases named : nameOf? tree node with
  | none => exact ⟨pure (), .pure (), rfl⟩
  | some name =>
    have text : tree.nameText? node = some name := (Option.filter_eq_some_iff.mp named).1
    dsimp only
    refine ⟨_, ?_, declareNew_bind _⟩
    exact .new (fun _ _ => .pure ()) (fun _ => documented_stays _ _ _) fun _ _ => by
      simp [Entry.plain, text]

/-- A function statement on a member declares the member if the table is known. -/
theorem visitFunctionStat_of_index {target base : NodeRef} {member : String}
    (found : tree.form? target = some (.index base (.named member))) (stmt : NodeRef)
    (method : Bool) (func : NodeRef) (doc : Option DocComment) :
    ∃ declarations : CollectM (Option Owner), Declares Entry.Hidden declarations ∧
      visitFunctionStat tree visit stmt target method func doc
        = declarations >>= fun owner =>
          visitClosure tree visit func doc (if method then owner else none) method := by
  let declarations : CollectM (Option Owner) := do
    let owner ← ownerOf? tree base
    if owner.isSome then
      let entry ← newEntry tree .function member target
      let _ ← declare (documented
        { entry with owner, worth := .method, initializer := some (wholeOf tree func) } doc none)
    pure owner
  refine ⟨declarations, (declares_ownerOf base).bind fun owner => ?_, ?_⟩
  · cases owner with
    | none => exact .pure none
    | some owner =>
      refine .new (fun _ _ => .pure _) (fun _ => documented_stays _ _ _) fun _ _ => ?_
      refine Entry.Hidden.of_isMember ?_
      simp only [Entry.isMember, documented_kind, documented_owner, Entry.plain]
      rfl
  · simp only [visitFunctionStat, found, declarations, bind_assoc]
    congr
    funext owner
    cases owner <;> rfl

/-- Where a name is assigned to, a global may be declared and the fields of its table. -/
theorem visitTarget_of_name {target : NodeRef} {name : String}
    (found : tree.form? target = some (.name name)) (stmt : NodeRef) (exprs : List NodeRef)
    (doc : Option DocComment) (index : Nat) :
    ∃ (doc' : Option DocComment) (className : Option String) (fields : Bool → CollectM Unit),
      (∀ made, Declares Entry.Hidden (fields made)) ∧
      visitTarget tree visit stmt exprs doc target index
        = declareGlobal tree stmt target name (initializerAt tree exprs index) doc' className
          >>= fields := by
  refine ⟨if index == 0 then doc else none, _, _, fun made => ?_,
    by simp only [visitTarget, found]; rfl⟩
  split
  · split
    · exact (declares_declareFields _ _).mono fun _ => And.left
    · exact .pure ()
  · exact .pure ()

/-- Where a member is assigned to, it is declared if the table is known. -/
theorem visitTarget_of_index {target base : NodeRef} {member : String}
    (found : tree.form? target = some (.index base (.named member))) (stmt : NodeRef)
    (exprs : List NodeRef) (doc : Option DocComment) (index : Nat) :
    ∃ declarations : Owner → CollectM Unit,
      (∀ owner, Declares Entry.Hidden (declarations owner)) ∧
      visitTarget tree visit stmt exprs doc target index
        = ownerOf? tree base >>= fun owner =>
          match owner with
          | none => visit (.expr base none)
          | some owner => declarations owner := by
  refine ⟨_, fun owner => ?_, by simp only [visitTarget, found]; rfl⟩
  refine .new (fun _ _ => .pure ()) (fun _ => documented_stays _ _ _) fun _ _ => ?_
  refine Entry.Hidden.of_isMember ?_
  simp only [Entry.isMember, documented_kind, documented_owner, Entry.plain]
  split <;> rfl

end Walk

/-! ## Lasting properties -/

/-- What holds of the walk goes on to hold when something is declared in the scope the walk is in,
when something is noted of functions, and when a part of the walk that keeps it is done in the scope
of a function or a loop. -/
structure Lasting (tree : Tree) {ι : Type} (holds : ι → Collector → Prop) : Prop where
  declare {i : ι} {c : Collector} {entry : Entry} (h : holds i c) (fresh : entry.Fresh c) :
    holds i (Collect.declare entry c).2
  note {i : ι} {c c' : Collector} (h : holds i c) (notes : c.Notes tree c') : holds i c'
  enclosed {m : Nat} {form : Form} (found : tree.form? (some m) = some form)
    (no_block : ∀ stmts, form ≠ .block stmts) (no_name : ∀ text, form ≠ .name text)
    (kind : ScopeKind) (function : NodeRef) {body : CollectM Unit}
    (inside : ∀ i, Keeps (holds i) body) (i : ι) :
    Keeps (holds i) (inScope kind (tree.span (some m)) function body)

variable {tree : Tree} {ι : Type} {holds : ι → Collector → Prop} {α β : Type}

section Notes

variable (lasting : Lasting tree holds) {i : ι}
include lasting

theorem Declares.keeps {ok : Entry → Prop} {step : CollectM α} (h : Declares ok step) :
    Keeps (holds i) step :=
  h (holds i) fun _ _ before fresh _ => lasting.declare before fresh

theorem keeps_note {f : Collector → Collector} (notes : ∀ c : Collector, c.Notes tree (f c)) :
    Keeps (holds i) (modify f : CollectM Unit) :=
  fun c h => lasting.note h (notes c)

theorem keeps_noteReturn (stmt : NodeRef) : Keeps (holds i) (noteReturn stmt) := by
  refine keeps_note lasting fun c => ?_
  split
  · exact .modify c _ fun _ => ⟨rfl, rfl⟩
  · exact .refl c

end Notes

/-! ## Parameters -/

/-- A declaration of a parameter remains one. -/
theorem lasting_isParam (tree : Tree) : Lasting tree fun d c => c.table.IsParam d where
  declare := by
    rintro d c entry ⟨known, found, kind⟩ -
    refine ⟨known, ?_, kind⟩
    have old : d ≠ c.table.entries.size := by
      rintro rfl
      simp [ScopeTable.entry?] at found
    simpa [Collect.declare, ScopeTable.declare, ScopeTable.entry?, Array.getElem?_push, old]
      using found
  note h notes := notes.table ▸ h
  enclosed := by
    intro _ _ _ _ _ kind function body inside d
    refine Keeps.bind (fun c h => ?_) fun _ => (inside d).bind fun _ c h => ?_
    · obtain ⟨entry, found, kind⟩ := h
      exact ⟨entry, found, kind⟩
    · rw [closeScope, snd_modify]
      split <;> exact h

theorem isParam_declare {entry : Entry} {c : Collector} (fresh : entry.Fresh c)
    (kind : entry.kind = .parameter) :
    (declare entry c).2.table.IsParam (declare entry c).1 := by
  refine ⟨entry, ?_, kind⟩
  simp [Collect.declare, ScopeTable.declare, ScopeTable.entry?, fresh.id]

theorem isParam_declareParams (tree : Tree) (params : List NodeRef) (doc : Option DocComment)
    (generics : List String) (visibleFrom : Nat) (c : Collector) :
    ∀ d ∈ (declareParams tree params doc generics visibleFrom c).1,
      (declareParams tree params doc generics visibleFrom c).2.table.IsParam d := by
  intro d mem
  obtain ⟨found, found_mem, is_d⟩ := List.mem_filterMap.mp mem
  refine forall_mem_mapM (fun found c => ∀ d, found = some d → c.table.IsParam d)
    (fun found param c h d is_d => ?_) (fun param c => ?_) params c found found_mem d is_d
  · refine (?_ : Keeps (fun c => c.table.IsParam d) _) c (h d is_d)
    split
    · exact .pure none
    · refine Declares.keeps (lasting_isParam tree) (?_ : Declares (fun _ => True) _)
      exact .new (fun _ _ => .pure _) (fun _ => ⟨rfl, rfl⟩) fun _ _ => trivial
  · cases named : nameOf? tree param with
    | none => exact fun _ is_d => nomatch is_d
    | some name =>
      rintro d ⟨⟩
      exact isParam_declare ⟨rfl, rfl⟩ rfl

/-- A function is noted with its parameters, which are declared before, and its body is walked as
the innermost function. -/
theorem visitClosure_eq (visit : Visit → CollectM Unit) {index : Nat} {params : List NodeRef}
    {variadic : Bool} {body : NodeRef}
    (found : tree.form? (some index) = some (.closure params variadic body))
    (doc : Option DocComment) (owner : Option Owner) (method : Bool) :
    ∃ prelude : CollectM FunctionInfo,
      Declares (fun entry => entry.kind = .parameter) prelude ∧
      (∀ c, (prelude c).2.table.Describes tree index (prelude c).1) ∧
      (∀ c, (prelude c).1.returnStmts = #[]) ∧
      visitClosure tree visit (some index) doc owner method
        = inScope .function (tree.span (some index)) (some index) (do
            let info ← prelude
            modify fun c =>
              { c with
                functions := c.functions.insert index info
                closures := index :: c.closures }
            visit (.stmts body)
            modify fun c => { c with closures := c.closures.tail }) := by
  let generics := (doc.map DocComment.genericNames).getD []
  let documentedReturns := (doc.map DocComment.returns).getD []
  let span := tree.span (some index)
  let named (self : List Nat) : CollectM FunctionInfo := do
    let named ← declareParams tree params doc generics span.start
    pure
      { returns :=
          if documentedReturns.isEmpty then none
          else some (TypeExpr.lowerReturns generics documentedReturns)
        generics, params := self ++ named, variadic, methodOf := owner, returnStmts := #[],
        fallsThrough := !blockReturns tree body }
  have declares (self : List Nat) : Declares (fun entry => entry.kind = .parameter) (named self) :=
    ((declares_declareParams params doc generics span.start).mono fun _ => And.left).bind
      fun _ => .pure _
  have declared (c : Collector) := isParam_declareParams tree params doc generics span.start c
  simp only [visitClosure, found]
  cases method with
  | false =>
    exact ⟨named [], declares [], fun c => ⟨declared c, _, _, _, found, rfl⟩, fun _ => rfl, rfl⟩
  | true =>
    refine ⟨declareSelf doc generics owner span >>= fun self => named [self],
      ((declares_declareSelf _ _ _ _).mono fun _ => And.left).bind fun self => declares [self],
      fun c => ⟨fun d mem => ?_, _, _, _, found, rfl⟩, fun _ => rfl, rfl⟩
    rcases List.mem_cons.mp mem with rfl | mem
    · exact (declares_declareParams params doc generics span.start).keeps (lasting_isParam tree) _
        (isParam_declare ⟨rfl, rfl⟩ rfl)
    · exact declared _ d mem

/-! ## Visits -/

section Walk

variable (lasting : Lasting tree holds) {i : ι} {visit : Visit → CollectM Unit}
  (expr : ∀ {i} node doc, Keeps (holds i) (visit (.expr node doc)))
  (stmts : ∀ {i} block, Keeps (holds i) (visit (.stmts block)))

include lasting expr

theorem keeps_visitLocals (stmt : NodeRef) (names exprs : List NodeRef) (doc : Option DocComment) :
    Keeps (holds i) (visitLocals tree visit stmt names exprs doc) := by
  obtain ⟨_, declares, eq⟩ := visitLocals_eq tree visit stmt names exprs doc
  rw [eq]
  exact (declares.keeps lasting).bind fun _ => keeps_visitDocumented expr exprs doc

theorem keeps_visitTarget (stmt : NodeRef) (exprs : List NodeRef) (doc : Option DocComment)
    (target : NodeRef) (index : Nat) :
    Keeps (holds i) (visitTarget tree visit stmt exprs doc target index) := by
  cases found : tree.form? target with
  | none =>
    simp only [visitTarget, found]
    exact expr target none
  | some form =>
    cases form with
    | name name =>
      obtain ⟨_, _, fields, declares, eq⟩ :=
        visitTarget_of_name tree visit found stmt exprs doc index
      rw [eq]
      exact ((declares_declareGlobal _ _ _ _ _ _).keeps lasting).bind fun made =>
        (declares made).keeps lasting
    | index base key =>
      cases key with
      | named member =>
        obtain ⟨_, declares, eq⟩ := visitTarget_of_index tree visit found stmt exprs doc index
        rw [eq]
        refine (keeps_ownerOf base).bind fun owner => ?_
        cases owner with
        | none => exact expr base none
        | some owner => exact (declares owner).keeps lasting
      | expr key =>
        simp only [visitTarget, found]
        exact expr target none
    | _ =>
      simp only [visitTarget, found]
      exact expr target none

theorem keeps_visitAssign (stmt : NodeRef) (targets exprs : List NodeRef)
    (doc : Option DocComment) : Keeps (holds i) (visitAssign tree visit stmt targets exprs doc) :=
  (Keeps.forM fun _ _ => keeps_visitTarget lasting expr _ _ _ _ _).bind fun _ =>
    keeps_visitDocumented expr exprs _

include stmts
omit expr

theorem keeps_visitClosure (closure : NodeRef) (doc : Option DocComment) (owner : Option Owner)
    (method : Bool) : Keeps (holds i) (visitClosure tree visit closure doc owner method) := by
  by_cases is_closure : ∃ index params variadic body, closure = some index ∧
      tree.form? (some index) = some (.closure params variadic body)
  · obtain ⟨index, params, variadic, body, rfl, found⟩ := is_closure
    obtain ⟨prelude, declares, describes, -, eq⟩ := visitClosure_eq visit found doc owner method
    rw [eq]
    refine lasting.enclosed found (by simp) (by simp) .function _ (fun i => ?_) i
    have inside : Keeps (holds i) (do
        visit (.stmts body)
        modify fun c => { c with closures := c.closures.tail } : CollectM Unit) :=
      (stmts body).bind fun _ => keeps_note lasting fun c => .closures c _
    exact .bind_of _ (declares.keeps lasting) describes fun info c h described =>
      inside _ (lasting.note h (.insert c index _ described))
  · unfold visitClosure
    split
    · rename_i index params variadic body found
      exact absurd ⟨index, params, variadic, body, rfl, found⟩ is_closure
    · exact .pure ()

theorem keeps_visitLocalFunction (node func : NodeRef) (doc : Option DocComment) :
    Keeps (holds i) (visitLocalFunction tree visit node func doc) := by
  obtain ⟨_, declares, eq⟩ := visitLocalFunction_eq tree visit node func doc
  rw [eq]
  exact (declares.keeps lasting).bind fun _ => keeps_visitClosure lasting stmts func doc none false

include expr

theorem keeps_visitFunctionStat (stmt target : NodeRef) (method : Bool) (func : NodeRef)
    (doc : Option DocComment) :
    Keeps (holds i) (visitFunctionStat tree visit stmt target method func doc) := by
  cases found : tree.form? target with
  | none =>
    simp only [visitFunctionStat, found]
    exact (expr target none).bind fun _ => keeps_visitClosure lasting stmts _ _ _ _
  | some form =>
    cases form with
    | name name =>
      simp only [visitFunctionStat, found]
      exact ((declares_declareGlobal _ _ _ _ _ _).keeps lasting).bind fun _ =>
        keeps_visitClosure lasting stmts _ _ _ _
    | index base key =>
      cases key with
      | named member =>
        obtain ⟨_, declares, eq⟩ :=
          visitFunctionStat_of_index tree visit found stmt method func doc
        rw [eq]
        exact (declares.keeps lasting).bind fun _ => keeps_visitClosure lasting stmts _ _ _ _
      | expr key =>
        simp only [visitFunctionStat, found]
        exact (expr target none).bind fun _ => keeps_visitClosure lasting stmts _ _ _ _
    | _ =>
      simp only [visitFunctionStat, found]
      exact (expr target none).bind fun _ => keeps_visitClosure lasting stmts _ _ _ _

variable (i) in
theorem keeps_visitExpr (node : NodeRef) (doc : Option DocComment) :
    Keeps (holds i) (visitExpr tree visit node doc) := by
  unfold visitExpr
  split
  · exact .pure ()
  · exact keeps_visitClosure lasting stmts _ _ _ _
  · refine .forM fun field _ => ?_
    split
    · exact (keeps_visitExprs expr _).bind fun _ => expr _ _
    · exact .pure ()
  · exact .forM fun child _ => expr _ _

variable (i) in
/-- A statement is walked so if its blocks are. The block of a `repeat` statement has no scope of
its own. -/
theorem keeps_visitForm {m : Nat} {form : Form} (found : tree.form? (some m) = some form)
    (blocks : (∀ block cond, form ≠ .repeatLoop block cond) → ∀ kind, ∀ block ∈ form.parts,
      Keeps (holds i) (visitBlock tree visit kind block))
    (itself : (∃ inner, form = .block inner) → ∀ kind,
      Keeps (holds i) (visitBlock tree visit kind (some m)))
    (doc : Option DocComment) : Keeps (holds i) (visitForm tree visit (some m) doc form) := by
  cases form with
  | localVars names exprs => exact keeps_visitLocals lasting expr _ _ _ _
  | localFunction name func => exact keeps_visitLocalFunction lasting stmts _ _ _
  | functionStat target method func =>
    exact keeps_visitFunctionStat lasting expr stmts _ _ _ _ _
  | assign targets exprs => exact keeps_visitAssign lasting expr _ _ _ _
  | ret exprs => exact (keeps_noteReturn lasting _).bind fun _ => keeps_visitExprs expr _
  | ifElse arms elseBlock =>
    refine (Keeps.forM fun arm mem => (expr arm.cond none).bind fun _ =>
      blocks (by simp) .block _ ?_).bind fun _ => blocks (by simp) .block _ ?_
    · exact List.mem_append_left _ (List.mem_flatMap.mpr ⟨arm, mem, by simp⟩)
    · simp [Form.parts]
  | whileLoop cond block =>
    exact (expr cond none).bind fun _ => blocks (by simp) .loop _ (by simp [Form.parts])
  | repeatLoop block cond =>
    exact lasting.enclosed found (by simp) (by simp) .loop none
      (fun _ => (stmts block).bind fun _ => expr cond none) i
  | numericFor var start limit step block =>
    refine (keeps_visitExprs expr _).bind fun _ =>
      lasting.enclosed found (by simp) (by simp) .loop none (fun i => ?_) i
    exact ((declares_declareLoopVar _ _ _ _ _).keeps lasting).bind fun _ => stmts _
  | genericFor names exprs block =>
    refine (keeps_visitExprs expr _).bind fun _ =>
      lasting.enclosed found (by simp) (by simp) .loop none (fun i => ?_) i
    refine Keeps.bind (.forM fun _ _ => ?_) fun _ => stmts _
    exact (declares_declareLoopVar _ _ _ _ _).keeps lasting
  | doBlock block => exact blocks (by simp) .block _ (by simp [Form.parts])
  | block inner => exact itself ⟨inner, rfl⟩ .block
  | exprStat node => exact expr node none
  | chunk block => exact stmts block
  | breakStat | docOnly => exact .pure ()
  | _ => exact expr _ none

end Walk

/-- Where it does not matter whose scope a part of the walk is done in, the whole walk keeps what
lasts. -/
theorem Lasting.visitWithin (lasting : Lasting tree holds)
    (anywhere : ∀ (kind : ScopeKind) (span : Span) (function : NodeRef) (body : CollectM Unit),
      (∀ i, Keeps (holds i) body) → ∀ i, Keeps (holds i) (inScope kind span function body))
    (depth : Nat) (v : Visit) (i : ι) : Keeps (holds i) (Collect.visitWithin tree depth v) := by
  induction depth generalizing v i with
  | zero => exact .pure ()
  | succ depth ih =>
    have block (kind : ScopeKind) (block : NodeRef) :
        Keeps (holds i) (visitBlock tree (Collect.visitWithin tree depth) kind block) := by
      rw [visitBlock]
      split
      · exact .pure ()
      · exact anywhere kind _ none _ (fun i => ih _ i) i
    cases v with
    | expr node doc =>
      exact keeps_visitExpr lasting i (fun _ _ => ih _ _) (fun _ => ih _ _) node doc
    | stmts block =>
      simp only [Collect.visitWithin, visitStep]
      split
      · exact .forM fun stmt _ => ih _ _
      · exact ih _ _
      · exact .pure ()
    | stmt node =>
      cases node with
      | none => exact .pure ()
      | some m =>
        simp only [Collect.visitWithin, visitStep]
        split
        · exact .pure ()
        · rename_i form found
          have statement := keeps_visitForm lasting i (fun _ _ => ih _ _) (fun _ => ih _ _) found
            (fun _ kind part _ => block kind part) (fun _ kind => block kind _) (tree.doc? (some m))
          split
          · exact ((declares_declareTags_go _ _ _ _).keeps lasting).bind fun _ => statement
          · exact statement

/-! ## A walk at known nodes -/

theorem visitWithin_stmts {tree : Tree} {n : Nat} {stmts : List NodeRef}
    (found : tree.form? (some n) = some (.block stmts)) (depth : Nat) :
    visitWithin tree (depth + 1) (.stmts (some n))
      = stmts.forM fun stmt => visitWithin tree depth (.stmt stmt) := by
  simp only [visitWithin, visitStep, found]

theorem visitWithin_stmt {tree : Tree} {n : Nat} {form : Form}
    (found : tree.form? (some n) = some form) (uncommented : tree.doc? (some n) = none)
    (depth : Nat) :
    visitWithin tree (depth + 1) (.stmt (some n))
      = visitForm tree (visitWithin tree depth) (some n) none form := by
  simp only [visitWithin, visitStep, found, uncommented]

section DocumentedGlobal

variable {tree : Tree} {stmt target value : Nat} {name : String} {comment : TypeExpr}
  {c : Collector} (named : tree.form? (some target) = some (.name name))
  (is_nil : tree.form? (some value) = some .nil)
  (unbound : c.table.lookup name (tree.span (some target)).start c.scope = none)
include named is_nil unbound

/-- Assigning nil to a name with a documented type declares a global, unless the name is bound. -/
theorem run_visitAssign_documented {visit : Visit → CollectM Unit}
    (walked : visit (.expr (some value) (some ⟨[.typeTag comment]⟩)) = pure ()) :
    (visitAssign tree visit (some stmt) [some target] [some value]
        (some ⟨[.typeTag comment]⟩)).run c
      = ((), (declare
          { Entry.plain c.table.entries.size .global name c.scope (some target)
              (tree.span (some target)) with
            declared := some (comment.lower [])
            initializer := some ⟨some value, 0, .literal⟩
            visibleFrom := (tree.span (some stmt)).stop } c).2) := by
  have shape : shapeOf tree (some value) = .literal := by
    simp only [shapeOf, shapeWithin, is_nil]
  have first : initializerAt tree [some value] 0 = some ⟨some value, 0, .literal⟩ :=
    congrArg (fun shape => some (Initializer.mk (some value) 0 shape)) shape
  have no_fields (owner : Owner) : declareFields tree owner (some value) = pure () := by
    simp only [declareFields, is_nil]
  have targets : visitTarget tree visit (some stmt) [some value] (some ⟨[.typeTag comment]⟩)
        (some target) 0
      = declareGlobal tree (some stmt) (some target) name (some ⟨some value, 0, .literal⟩)
          (some ⟨[.typeTag comment]⟩) none >>= fun _ => pure () := by
    simp only [visitTarget, named, first]
    refine congrArg (_ >>= ·) (funext fun made => ?_)
    split
    · exact no_fields _
    · rfl
  have values : visitDocumented visit [some value] (some ⟨[.typeTag comment]⟩) = pure () := by
    rw [visitDocumented, walked]
    rfl
  have global : (declareGlobal tree (some stmt) (some target) name (some ⟨some value, 0, .literal⟩)
        (some ⟨[.typeTag comment]⟩) none).run c
      = (true, (declare
          { Entry.plain c.table.entries.size .global name c.scope (some target)
              (tree.span (some target)) with
            declared := some (comment.lower [])
            initializer := some ⟨some value, 0, .literal⟩
            visibleFrom := (tree.span (some stmt)).stop } c).2) := by
    have bound : (localBinding? tree name (some target)).run c = (none, c) :=
      congrArg (fun found => (found, c)) unbound
    rw [declareGlobal, StateT.run_bind, bound]
    rfl
  simp only [visitAssign, List.zipIdx_cons, List.zipIdx_nil, List.forM_eq_forM, List.forM_cons,
    List.forM_nil, targets, List.length_singleton, beq_self_eq_true, if_true, values,
    StateT.run_bind, global]
  rfl

theorem run_visitWithin_documented
    (found : tree.form? (some stmt) = some (.assign [some target] [some value]))
    (documented : tree.doc? (some stmt) = some ⟨[.typeTag comment]⟩) (depth : Nat) :
    (visitWithin tree (depth + 2) (.stmt (some stmt))).run c
      = ((), (declare
          { Entry.plain c.table.entries.size .global name c.scope (some target)
              (tree.span (some target)) with
            declared := some (comment.lower [])
            initializer := some ⟨some value, 0, .literal⟩
            visibleFrom := (tree.span (some stmt)).stop } c).2) := by
  have walked : visitWithin tree (depth + 1) (.expr (some value) (some ⟨[.typeTag comment]⟩))
      = pure () := by
    simp only [visitWithin, visitStep, visitExpr, is_nil]
    rfl
  have statement : visitWithin tree (depth + 2) (.stmt (some stmt))
      = visitAssign tree (visitWithin tree (depth + 1)) (some stmt) [some target] [some value]
          (some ⟨[.typeTag comment]⟩) := by
    rw [visitWithin]
    simp only [visitStep, found, documented]
    rfl
  rw [statement]
  exact run_visitAssign_documented named is_nil unbound walked

end DocumentedGlobal

/-- A file that is one comment declares what the tags of the comment say. -/
theorem run_docOnly {tree : Tree} {block stmt : Nat} {doc : DocComment}
    (root : tree.form? tree.root = some (.chunk (some block)))
    (body : tree.form? (some block) = some (.block [some stmt]))
    (only : tree.form? (some stmt) = some .docOnly) (comment : tree.doc? (some stmt) = some doc) :
    run tree
      = ((inScope .file (tree.span tree.root) none
          (declareTags tree (some stmt) doc)).run start).2 := by
  have tags (depth : Nat) : visitWithin tree (depth + 1) (.stmt (some stmt))
      = declareTags tree (some stmt) doc := by
    simp only [visitWithin, visitStep, only, comment, visitForm]
    rfl
  have depth : depthBound tree = 3 * (tree.size + 1) + 1 + 2 := rfl
  rw [run, root]
  simp only [depth, visitWithin_stmts body, List.forM_eq_forM, List.forM_cons, List.forM_nil, tags]
  rfl

end Collect

end LuaTyping
