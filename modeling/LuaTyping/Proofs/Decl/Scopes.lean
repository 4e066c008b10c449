import LuaTyping.Proofs.Decl.Steps
import LuaTyping.Proofs.Tree.Layout

/-!
# Scopes and the nodes that open them

The walk that collects declarations opens a scope with the span of a node, puts scopes inside each
other and declarations into scopes. Whatever the walk has recorded, a scope has the span of a node,
the scopes listed inside it name it as the one around them, and so do the declarations listed in it.

The block of a `repeat` statement never opens a scope: its statements and the condition share the
one of the whole statement.
-/

set_option autoImplicit false

namespace LuaTyping

namespace Tree

/-- The block of a `repeat` statement. -/
def IsRepeatBody (tree : Tree) (m : Nat) : Prop :=
  ∃ whole stmts block cond, tree.form? (some m) = some (.block stmts) ∧ tree.PartOf m whole ∧
    tree.form? (some whole) = some (.repeatLoop block cond)

/-- The node may open a scope. -/
def Opens (tree : Tree) (m : Nat) : Prop := m < tree.size ∧ ¬ tree.IsRepeatBody m

/-- The node may open a scope and is no name, so that there may be variables in it. -/
def Hosts (tree : Tree) (m : Nat) : Prop := tree.Opens m ∧ ¬ tree.IsName m

variable {tree : Tree} {m : Nat} {form : Form}

theorem not_isRepeatBody (found : tree.form? (some m) = some form)
    (no_block : ∀ stmts, form ≠ .block stmts) : ¬ tree.IsRepeatBody m := by
  rintro ⟨_, stmts, _, _, block, -⟩
  exact no_block stmts (Option.some.inj (found.symm.trans block))

theorem hosts_of_form (found : tree.form? (some m) = some form)
    (no_block : ∀ stmts, form ≠ .block stmts) (no_name : ∀ text, form ≠ .name text) :
    tree.Hosts m := by
  refine ⟨⟨lt_size_of_form? found, not_isRepeatBody found no_block⟩, ?_⟩
  rintro ⟨text, named⟩
  exact no_name text (Option.some.inj (found.symm.trans named))

theorem opens_of_child (linked : tree.Linked) (found : tree.form? (some m) = some form)
    (other : ∀ block cond, form ≠ .repeatLoop block cond) {child : Nat}
    (mem : child ∈ form.children) : tree.Opens child := by
  have part : tree.PartOf child m := linked m child (by simpa [children, found] using mem)
  refine ⟨?_, ?_⟩
  · refine Nat.lt_of_not_le fun beyond => ?_
    have : tree.nodes[child]? = none := Array.getElem?_eq_none beyond
    simp [PartOf, parent, node?, this] at part
  · rintro ⟨whole, _, block, cond, -, of_whole, whole_form⟩
    cases Option.some.inj (part.symm.trans of_whole)
    exact other block cond (Option.some.inj (found.symm.trans whole_form))

end Tree

/-! ## The table -/

/-- A local variable or a parameter. -/
def Entry.IsVariable (entry : Entry) : Prop := entry.kind = .localVar ∨ entry.kind = .parameter

namespace ScopeTable

/-- The scope is that of a node that may have variables in it. -/
def Speaks (tree : Tree) (table : ScopeTable) (s : Nat) : Prop :=
  ∃ scope m, table.scopes[s]? = some scope ∧ tree.Hosts m ∧ scope.span = tree.span (some m)

/-- Scopes and declarations are listed in the scopes that they name; and the scopes that are named
as the one around another, or by a variable, are those of nodes that are no names. -/
structure Fits (tree : Tree) (table : ScopeTable) : Prop where
  outermost : ∃ scope : Scope, table.scopes[0]? = some scope ∧ scope.parent = none ∧
    scope.span = tree.span tree.root
  inner : ∀ (s : Nat) (scope : Scope), table.scopes[s]? = some scope → ∀ c ∈ scope.children,
    ∃ child : Scope, table.scopes[c]? = some child ∧ child.parent = some s
  home : ∀ (s : Nat) (scope : Scope), table.scopes[s]? = some scope → ∀ d ∈ scope.decls,
    ∃ entry, table.entry? d = some entry ∧ entry.scope = some s
  parents : ∀ (s t : Nat) (scope : Scope), table.scopes[s]? = some scope →
    scope.parent = some t → table.Speaks tree t
  bindings : ∀ d entry s, table.entry? d = some entry → entry.IsVariable →
    entry.scope = some s → table.Speaks tree s

/-- The second table has the scopes and declarations of the first. -/
structure Grows (old new : ScopeTable) : Prop where
  scope : ∀ (s : Nat) (scope : Scope), old.scopes[s]? = some scope →
    ∃ scope' : Scope, new.scopes[s]? = some scope' ∧ scope'.parent = scope.parent ∧
      scope'.span = scope.span
  entry : ∀ d entry, old.entry? d = some entry → new.entry? d = some entry

theorem Grows.refl (table : ScopeTable) : table.Grows table :=
  ⟨fun _ scope found => ⟨scope, found, rfl, rfl⟩, fun _ _ found => found⟩

theorem Grows.trans {a b c : ScopeTable} (first : a.Grows b) (second : b.Grows c) : a.Grows c where
  scope s scope found := by
    obtain ⟨scope', found', parent', span'⟩ := first.scope s scope found
    obtain ⟨scope'', found'', parent'', span''⟩ := second.scope s scope' found'
    exact ⟨scope'', found'', parent''.trans parent', span''.trans span'⟩
  entry d entry found := second.entry d entry (first.entry d entry found)

theorem Speaks.mono {tree : Tree} {old new : ScopeTable} {s : Nat} (grows : old.Grows new)
    (h : old.Speaks tree s) : new.Speaks tree s := by
  obtain ⟨scope, m, found, hosts, span⟩ := h
  obtain ⟨scope', found', -, span'⟩ := grows.scope s scope found
  exact ⟨scope', m, found', hosts, span'.trans span⟩

theorem scopes_openScope (table : ScopeTable) (parent : Option Nat) (kind : ScopeKind) (span : Span)
    (function : NodeRef) (s : Nat) :
    (table.openScope parent kind span function).2.scopes[s]?
      = (if s = table.scopes.size then some ⟨kind, parent, span, #[], #[], function⟩
          else table.scopes[s]?).map fun scope =>
            if parent = some s then { scope with children := scope.children.push table.scopes.size }
            else scope := by
  cases parent with
  | none => simp [openScope, Array.getElem?_push]
  | some outer =>
    simp only [openScope, Array.getElem?_modify, Array.getElem?_push, Option.some.injEq]
    by_cases same : outer = s <;> simp [same]

theorem scopes_declare (table : ScopeTable) (entry : Entry) (s : Nat) :
    (table.declare entry).scopes[s]?
      = (table.scopes[s]?).map fun scope =>
          if entry.scope = some s then { scope with decls := scope.decls.push entry.id }
          else scope := by
  cases home : entry.scope with
  | none => simp [declare, home]
  | some outer =>
    simp only [declare, home, Array.getElem?_modify, Option.some.injEq]
    by_cases same : outer = s <;> simp [same]

theorem entry?_declare (table : ScopeTable) (entry : Entry) (d : Nat) :
    ScopeTable.entry? (table.declare entry) d
      = if d = table.entries.size then some entry else table.entry? d := by
  simp [declare, ScopeTable.entry?, Array.getElem?_push]

theorem grows_declare (table : ScopeTable) (entry : Entry) :
    table.Grows (table.declare entry) where
  scope s scope found := by
    rw [scopes_declare, found]
    refine ⟨_, rfl, ?_⟩
    split <;> exact ⟨rfl, rfl⟩
  entry d known found := by
    have old : d ≠ table.entries.size := by
      rintro rfl
      simp [ScopeTable.entry?] at found
    rw [entry?_declare, if_neg old, found]

theorem grows_openScope (table : ScopeTable) (parent : Option Nat) (kind : ScopeKind) (span : Span)
    (function : NodeRef) : table.Grows (table.openScope parent kind span function).2 where
  scope s scope found := by
    have old : s ≠ table.scopes.size := by
      rintro rfl
      simp at found
    rw [scopes_openScope, if_neg old, found]
    refine ⟨_, rfl, ?_⟩
    split <;> exact ⟨rfl, rfl⟩
  entry _ _ found := found

/-- A new scope has the span it is opened with, inside the scope it is opened in. -/
theorem exists_openScope (table : ScopeTable) (parent : Option Nat) (kind : ScopeKind) (span : Span)
    (function : NodeRef) :
    ∃ scope : Scope,
      (table.openScope parent kind span function).2.scopes[table.scopes.size]? = some scope ∧
      scope.parent = parent ∧ scope.span = span := by
  rw [scopes_openScope, if_pos rfl]
  refine ⟨_, rfl, ?_⟩
  split <;> exact ⟨rfl, rfl⟩

variable {tree : Tree} {table : ScopeTable}

/-- A declaration is listed in the scope it names, and nothing else changes. -/
theorem Fits.declare (h : table.Fits tree) {entry : Entry}
    (id : entry.id = table.entries.size)
    (speaks : entry.IsVariable → ∀ s, entry.scope = some s → table.Speaks tree s) :
    (table.declare entry).Fits tree := by
  have grows := table.grows_declare entry
  refine ⟨?_, fun s scope' found c mem => ?_, fun s scope' found d mem => ?_,
    fun s t scope' found inside => ?_, fun d known s found variable_ home => ?_⟩
  · obtain ⟨scope, found, parent, span⟩ := h.outermost
    obtain ⟨scope', found', parent', span'⟩ := grows.scope 0 scope found
    exact ⟨scope', found', parent'.trans parent, span'.trans span⟩
  · rw [scopes_declare] at found
    obtain ⟨scope, before, rfl⟩ := Option.map_eq_some_iff.mp found
    have mem : c ∈ scope.children := by split at mem <;> exact mem
    obtain ⟨child, found_child, parent⟩ := h.inner s scope before c mem
    obtain ⟨child', found', parent', -⟩ := grows.scope c child found_child
    exact ⟨child', found', parent'.trans parent⟩
  · rw [scopes_declare] at found
    obtain ⟨scope, before, rfl⟩ := Option.map_eq_some_iff.mp found
    have inherited (mem : d ∈ scope.decls) :
        ∃ entry', ScopeTable.entry? (table.declare entry) d = some entry' ∧
          entry'.scope = some s := by
      obtain ⟨known, found_entry, home⟩ := h.home s scope before d mem
      exact ⟨known, grows.entry d known found_entry, home⟩
    split at mem
    · rename_i here
      rcases Array.mem_push.mp mem with mem | rfl
      · exact inherited mem
      · exact ⟨entry, by rw [entry?_declare, if_pos id], here⟩
    · exact inherited mem
  · rw [scopes_declare] at found
    obtain ⟨scope, before, rfl⟩ := Option.map_eq_some_iff.mp found
    refine (h.parents s t scope before ?_).mono grows
    split at inside <;> exact inside
  · rw [entry?_declare] at found
    split at found
    · cases found
      exact (speaks variable_ s home).mono grows
    · exact (h.bindings d known s found variable_ home).mono grows

/-- A scope is listed in the one around it, and nothing else changes. -/
theorem Fits.openScope (h : table.Fits tree) {parent : Option Nat}
    (speaks : ∀ t, parent = some t → table.Speaks tree t) (kind : ScopeKind) (span : Span)
    (function : NodeRef) : (table.openScope parent kind span function).2.Fits tree := by
  have grows := table.grows_openScope parent kind span function
  have listed {s c : Nat} (new : c = table.scopes.size) (here : parent = some s) :
      ∃ child : Scope,
        (table.openScope parent kind span function).2.scopes[c]? = some child ∧
        child.parent = some s := by
    obtain ⟨child, found, inside, -⟩ := table.exists_openScope parent kind span function
    exact ⟨child, new ▸ found, inside.trans here⟩
  have inherited {s c : Nat} {scope : Scope} (found : table.scopes[s]? = some scope)
      (mem : c ∈ scope.children) :
      ∃ child : Scope,
        (table.openScope parent kind span function).2.scopes[c]? = some child ∧
        child.parent = some s := by
    obtain ⟨child, found_child, inside⟩ := h.inner s scope found c mem
    obtain ⟨child', found', parent', -⟩ := grows.scope c child found_child
    exact ⟨child', found', parent'.trans inside⟩
  refine ⟨?_, fun s scope' found c mem => ?_, fun s scope' found d mem => ?_,
    fun s t scope' found inside => ?_, fun d known s found variable_ home => ?_⟩
  · obtain ⟨scope, found, parent, span⟩ := h.outermost
    obtain ⟨scope', found', parent', span'⟩ := grows.scope 0 scope found
    exact ⟨scope', found', parent'.trans parent, span'.trans span⟩
  · rw [scopes_openScope] at found
    obtain ⟨scope, before, rfl⟩ := Option.map_eq_some_iff.mp found
    have mem : c ∈ scope.children ∨ c = table.scopes.size ∧ parent = some s := by
      split at mem
      · rename_i here
        exact (Array.mem_push.mp mem).imp_right fun new => ⟨new, here⟩
      · exact .inl mem
    rcases mem with mem | ⟨new, here⟩
    · split at before
      · cases before
        simp at mem
      · exact inherited before mem
    · exact listed new here
  · rw [scopes_openScope] at found
    obtain ⟨scope, before, rfl⟩ := Option.map_eq_some_iff.mp found
    have mem : d ∈ scope.decls := by split at mem <;> exact mem
    split at before
    · cases before
      simp at mem
    · exact h.home s scope before d mem
  · rw [scopes_openScope] at found
    obtain ⟨scope, before, rfl⟩ := Option.map_eq_some_iff.mp found
    have inside : scope.parent = some t := by split at inside <;> exact inside
    split at before
    · cases before
      exact (speaks t inside).mono grows
    · exact (h.parents s t scope before inside).mono grows
  · exact (h.bindings d known s found variable_ home).mono grows

/-- The scope of the whole file is the first one. -/
theorem fits_file : (empty.openScope none .file (tree.span tree.root) none).2.Fits tree := by
  have only {s : Nat} {scope : Scope}
      (found : (empty.openScope none .file (tree.span tree.root) none).2.scopes[s]? = some scope) :
      scope = ⟨.file, none, tree.span tree.root, #[], #[], none⟩ := by
    simp [scopes_openScope, empty] at found
    exact found.2.symm
  refine ⟨⟨_, rfl, rfl, rfl⟩, fun s scope found c mem => ?_,
    fun s scope found d mem => ?_, fun s t scope found inside => ?_, fun d known s found => ?_⟩
  · simp [only found] at mem
  · simp [only found] at mem
  · simp [only found] at inside
  · cases found

end ScopeTable

/-! ## Steps of the walk -/

/-- What is recorded fits the tree, and the walk is in the scope of a node that is no name. -/
structure Collector.Settled (tree : Tree) (c : Collector) : Prop where
  fits : c.table.Fits tree
  current : ∀ s, c.scope = some s → c.table.Speaks tree s

namespace Collect

variable {tree : Tree} {α β : Type}

/-- The step stays in the scope it is in, and declares no variable there. -/
def Quiet (tree : Tree) (step : CollectM α) : Prop :=
  ∀ c, c.table.Fits tree → (step c).2.table.Fits tree ∧ c.table.Grows (step c).2.table ∧
    (step c).2.scope = c.scope

namespace Quiet

theorem pure (a : α) : Quiet tree (Pure.pure a : CollectM α) :=
  fun _ h => ⟨h, .refl _, rfl⟩

theorem bind {step : CollectM α} {next : α → CollectM β} (first : Quiet tree step)
    (then_ : ∀ a, Quiet tree (next a)) : Quiet tree (step >>= next) := by
  intro c h
  obtain ⟨fits, grows, same⟩ := first c h
  obtain ⟨fits', grows', same'⟩ := then_ (step c).1 (step c).2 fits
  exact ⟨fits', grows.trans grows', same'.trans same⟩

theorem keeps {step : CollectM α} (h : Quiet tree step) : Keeps (Collector.Settled tree) step := by
  intro c settled
  obtain ⟨fits, grows, same⟩ := h c settled.fits
  exact ⟨fits, fun s is_scope => (settled.current s (same ▸ is_scope)).mono grows⟩

end Quiet

/-- Going out of a scope leads to one that others name as the one around them. -/
theorem settled_closeScope {c : Collector} (fits : c.table.Fits tree)
    (there : (c.table.scope? c.scope).isSome) : (closeScope c).2.Settled tree := by
  obtain ⟨scope, found⟩ := Option.isSome_iff_exists.mp there
  rw [closeScope_of_scope? found]
  cases is_scope : c.scope with
  | none => simp [is_scope, ScopeTable.scope?] at found
  | some s =>
    rw [is_scope] at found
    exact ⟨fits, fun t inside => fits.parents s t scope found inside⟩

theorem keeps_closeScope : Keeps (Collector.Settled tree) closeScope := by
  intro c settled
  cases found : c.table.scope? c.scope with
  | none =>
    have unchanged : (closeScope c).2 = c := by rw [closeScope, snd_modify, found]
    rwa [unchanged]
  | some scope => exact settled_closeScope settled.fits (by rw [found]; rfl)

theorem keeps_inScope (kind : ScopeKind) (function : NodeRef) {m : Nat} (hosts : tree.Hosts m)
    {body : CollectM Unit} (inside : Keeps (Collector.Settled tree) body) :
    Keeps (Collector.Settled tree) (inScope kind (tree.span (some m)) function body) := by
  refine Keeps.bind (fun c settled => ?_) fun _ => inside.bind fun _ => keeps_closeScope
  refine ⟨settled.fits.openScope settled.current kind _ function, fun s is_scope => ?_⟩
  cases is_scope
  obtain ⟨scope, found, -, span⟩ :=
    c.table.exists_openScope c.scope kind (tree.span (some m)) function
  exact ⟨scope, m, found, hosts, span⟩

/-- A scope in which nothing is declared but what comments say may be that of any node. -/
theorem keeps_inScope_of_quiet (kind : ScopeKind) (span : Span) (function : NodeRef)
    {body : CollectM Unit} (quiet : Quiet tree body) :
    Keeps (Collector.Settled tree) (inScope kind span function body) := by
  intro c settled
  have opened := settled.fits.openScope settled.current kind span function
  obtain ⟨fits, grows, same⟩ := quiet (openScope kind span function c).2 opened
  obtain ⟨scope, found, -⟩ := c.table.exists_openScope c.scope kind span function
  obtain ⟨scope', found', -⟩ := grows.scope _ scope found
  refine settled_closeScope fits (Option.isSome_iff_exists.mpr ⟨scope', ?_⟩)
  exact (congrArg _ same).trans found'

theorem settled_declare {c : Collector} (settled : c.Settled tree) {entry : Entry}
    (fresh : entry.Fresh c) : (declare entry c).2.Settled tree where
  fits := settled.fits.declare fresh.id fun _ s home =>
    settled.current s (fresh.scope.symm.trans home)
  current s is_scope := (settled.current s is_scope).mono (c.table.grows_declare entry)

theorem lasting_settled : Lasting tree fun _ : Unit => Collector.Settled tree where
  declare settled fresh := settled_declare settled fresh
  note settled notes :=
    ⟨notes.table ▸ settled.fits,
      fun s is_scope => notes.table ▸ settled.current s (notes.scope ▸ is_scope)⟩
  enclosed found no_block no_name kind function _ inside _ :=
    keeps_inScope kind function (Tree.hosts_of_form found no_block no_name) (inside ())

/-- What no name leads to is no variable. -/
theorem Declares.quiet {step : CollectM α} (h : Declares Entry.Hidden step) : Quiet tree step := by
  intro c fits
  refine h (fun c' => c'.table.Fits tree ∧ c.table.Grows c'.table ∧ c'.scope = c.scope)
    (fun c' entry before fresh hidden => ?_) c ⟨fits, .refl _, rfl⟩
  obtain ⟨fits, grows, same⟩ := before
  have no_variable : ¬ entry.IsVariable := by
    have unbound := hidden.unbound entry.name
    rintro (kind | kind) <;>
      simp [Entry.binds, Entry.isMember, DeclKind.isLexical, DeclKind.isMember, kind] at unbound
  exact ⟨fits.declare fresh.id fun is_variable => absurd is_variable no_variable,
    grows.trans (c'.table.grows_declare entry), same⟩

/-! ## Visits -/

/-- The visits that the walk makes: the block of a `repeat` statement is no statement of its own. -/
def Proper (tree : Tree) : Visit → Prop
  | .stmt node => ∀ m, node = some m → ¬ tree.IsRepeatBody m
  | _ => True

section Walk

variable {visit : Visit → CollectM Unit}
  (each : ∀ v, Proper tree v → Keeps (Collector.Settled tree) (visit v))
  (quiet : ∀ m, tree.IsName m → Quiet tree (visit (.stmts (some m))))
include each

include quiet in
theorem keeps_visitBlock (kind : ScopeKind) (block : NodeRef)
    (opens : ∀ m, block = some m → tree.Opens m) :
    Keeps (Collector.Settled tree) (visitBlock tree visit kind block) := by
  cases block with
  | none => exact .pure ()
  | some m =>
    by_cases named : tree.IsName m
    · exact keeps_inScope_of_quiet kind _ none (quiet m named)
    · exact keeps_inScope kind none ⟨opens m rfl, named⟩ (each (.stmts (some m)) trivial)

include quiet in
theorem settled_visitForm (linked : tree.Linked) {m : Nat} {form : Form}
    (found : tree.form? (some m) = some form) (proper : Proper tree (.stmt (some m)))
    (doc : Option DocComment) :
    Keeps (Collector.Settled tree) (visitForm tree visit (some m) doc form) := by
  refine keeps_visitForm lasting_settled () (fun _ _ => each _ trivial) (fun _ => each _ trivial)
    found ?_ ?_ doc
  · -- a block that is a part of another statement than `repeat` may open a scope
    intro other kind block mem
    refine keeps_visitBlock each quiet kind block ?_
    rintro child rfl
    exact Tree.opens_of_child linked found other (List.mem_filterMap.mpr ⟨some child, mem, rfl⟩)
  · rintro - kind
    refine keeps_visitBlock each quiet kind _ fun child same => ?_
    cases same
    exact ⟨Tree.lt_size_of_form? found, proper m rfl⟩

include quiet in
theorem keeps_visitStep (linked : tree.Linked) {v : Visit} (proper : Proper tree v) :
    Keeps (Collector.Settled tree) (visitStep tree visit v) := by
  cases v with
  | expr node doc =>
    exact keeps_visitExpr lasting_settled () (fun _ _ => each _ trivial) (fun _ => each _ trivial)
      node doc
  | stmt node =>
    cases node with
    | none => exact .pure ()
    | some m =>
      simp only [visitStep]
      split
      · exact .pure ()
      · rename_i form found
        have statement := settled_visitForm each quiet linked found proper (tree.doc? (some m))
        split
        · exact ((declares_declareTags_go _ _ _ _).mono fun _ => And.left).quiet.keeps.bind
            fun _ => statement
        · exact statement
  | stmts block =>
    cases block with
    | none => exact .pure ()
    | some m =>
      simp only [visitStep]
      split
      · rename_i stmts found
        refine .forM fun stmt mem => each (.stmt stmt) ?_
        rintro child rfl
        have child_mem : child ∈ (Form.block stmts).children :=
          List.mem_filterMap.mpr ⟨some child, mem, rfl⟩
        exact (Tree.opens_of_child linked found (by simp) child_mem).2
      · rename_i form found other
        refine each (.stmt (some m)) fun child same => ?_
        cases same
        exact Tree.not_isRepeatBody other fun stmts is_block => found stmts (is_block ▸ rfl)
      · exact .pure ()

end Walk

/-- Visiting a name declares at most what a comment at it says. -/
theorem quiet_visitWithin {m : Nat} (named : tree.IsName m) (depth : Nat) {v : Visit}
    (subject : v = .stmts (some m) ∨ v = .stmt (some m) ∨ v = .expr (some m) none) :
    Quiet tree (visitWithin tree depth v) := by
  obtain ⟨text, found⟩ := named
  induction depth generalizing v with
  | zero => exact .pure ()
  | succ depth ih =>
    rcases subject with rfl | rfl | rfl
    · simpa [visitWithin, visitStep, found] using ih (.inr (.inl rfl))
    · have inside := ih (.inr (.inr rfl))
      simp only [visitWithin, visitStep, found, visitForm]
      split
      · exact ((declares_declareTags_go _ _ _ _).mono fun _ => And.left).quiet.bind fun _ => inside
      · exact inside
    · simpa [visitWithin, visitStep, visitExpr, found, Form.children, Form.parts]
        using Quiet.pure ()

theorem keeps_visitWithin (linked : tree.Linked) (depth : Nat) {v : Visit}
    (proper : Proper tree v) : Keeps (Collector.Settled tree) (visitWithin tree depth v) := by
  induction depth generalizing v with
  | zero => exact .pure ()
  | succ depth ih =>
    exact keeps_visitStep (fun _ => ih) (fun _ named => quiet_visitWithin named depth (.inl rfl))
      linked proper

/-- What a walk records fits the tree, unless nothing is walked. -/
theorem fits_run (linked : tree.Linked) :
    (run tree).table = .empty ∨ (run tree).table.Fits tree := by
  unfold run
  split
  · rename_i block found
    have opened : (openScope .file (tree.span tree.root) none start).2.Settled tree := by
      refine ⟨ScopeTable.fits_file, fun s is_scope => ?_⟩
      cases is_scope
      cases is_root : tree.root with
      | none => simp [is_root, Tree.form?, Tree.node?] at found
      | some root =>
        rw [is_root] at found
        exact ⟨_, root, rfl, Tree.hosts_of_form found (by simp) (by simp), rfl⟩
    have walked :
        Keeps (Collector.Settled tree) (visitWithin tree (depthBound tree) (.stmts block)) :=
      keeps_visitWithin linked _ trivial
    exact .inr (walked.bind (fun _ => keeps_closeScope) _ opened).fits
  · exact .inl rfl

end Collect

/-! ## Looking names up -/

namespace ScopeTable

variable {tree : Tree} {table : ScopeTable} {pos : Nat}

/-- The scopes that are reached from the outermost one by going into scopes that hold `pos`. -/
inductive Around (table : ScopeTable) (pos : Nat) : Nat → Prop
  | outermost {scope : Scope} (found : table.scopes[0]? = some scope)
      (first : scope.parent = none) : Around table pos 0
  | inner {s c : Nat} {scope : Scope} (around : Around table pos s)
      (found : table.scopes[c]? = some scope) (inside : scope.parent = some s)
      (holds : scope.span.contains pos) : Around table pos c

theorem Fits.around_descend (fits : table.Fits tree) (steps : Nat) {s : Nat}
    (h : table.Around pos s) : table.Around pos (table.descend pos steps s) := by
  induction steps generalizing s with
  | zero => exact h
  | succ steps ih =>
    rw [descend]
    split
    · exact h
    · rename_i scope found
      dsimp only
      split
      · rename_i child chosen
        have mem := Array.mem_of_find?_eq_some chosen
        obtain ⟨inner, found_child, inside⟩ := fits.inner s scope found child mem
        have holds := Array.find?_some chosen
        simp only [found_child] at holds
        exact ih (.inner h found_child inside holds)
      · exact h

theorem Fits.around_scopeAt (fits : table.Fits tree) :
    ∃ s, table.scopeAt pos = some s ∧ table.Around pos s := by
  obtain ⟨scope, found, first, -⟩ := fits.outermost
  rw [scopeAt, found]
  dsimp only
  split
  · exact ⟨_, rfl, fits.around_descend _ (.outermost found first)⟩
  · exact ⟨0, rfl, .outermost found first⟩

theorem later_mem (table : ScopeTable) (a b : Nat) : table.later a b = a ∨ table.later a b = b := by
  rw [later]
  split
  · exact .inr rfl
  · exact .inl rfl

theorem mem_of_latest? {decls : List Nat} {decl : Nat} (h : table.latest? decls = some decl) :
    decl ∈ decls := by
  have among (first : Nat) (rest : List Nat) : rest.foldl table.later first ∈ first :: rest := by
    induction rest generalizing first with
    | nil => simp
    | cons second rest ih =>
      have one := table.later_mem first second
      have := ih (table.later first second)
      rw [List.foldl_cons]
      grind
  cases decls with
  | nil => cases h
  | cons first rest =>
    cases h
    exact among first rest

/-- A binding is found in the scope itself or from the scope around it. -/
theorem lookupWithin_cases {name : String} {steps s decl : Nat} {scope : Scope}
    (at_s : table.scopes[s]? = some scope)
    (found : table.lookupWithin name pos steps (some s) = some decl) :
    decl ∈ scope.decls ∨ ∃ fewer, table.lookupWithin name pos fewer scope.parent = some decl := by
  cases steps with
  | zero => cases found
  | succ steps =>
    simp only [ScopeTable.lookupWithin, scope?, Option.bind_some, at_s] at found
    split at found
    · rename_i visible
      cases found
      have mem := mem_of_latest? visible
      exact .inl (Array.mem_toList_iff.mp (List.mem_filter.mp mem).1)
    · exact .inr ⟨steps, found⟩

/-- A binding that is found stands in the outermost scope or in one that holds the reference. -/
theorem Around.lookupWithin {name : String} {steps s decl : Nat} (h : table.Around pos s)
    (found : table.lookupWithin name pos steps (some s) = some decl) :
    ∃ t scope, table.scopes[t]? = some scope ∧ decl ∈ scope.decls ∧
      (t = 0 ∨ scope.span.contains pos) := by
  induction h generalizing steps with
  | @outermost scope at_zero first =>
    rcases lookupWithin_cases at_zero found with mem | ⟨fewer, found⟩
    · exact ⟨0, scope, at_zero, mem, .inl rfl⟩
    · rw [first] at found
      cases fewer <;> cases found
  | @inner s c scope around at_c inside holds ih =>
    rcases lookupWithin_cases at_c found with mem | ⟨fewer, found⟩
    · exact ⟨c, scope, at_c, mem, .inr holds⟩
    · rw [inside] at found
      exact ih found

/-- A variable that is found stands in the scope of a node: the root, or one whose span holds the
reference. -/
theorem Fits.lookup_scopeAt (fits : table.Fits tree) {name : String} {decl : Nat} {entry : Entry}
    (found : table.lookup name pos (table.scopeAt pos) = some decl)
    (is_entry : table.entry? decl = some entry) (is_variable : entry.IsVariable) :
    ∃ s scope m, entry.scope = some s ∧ table.scopes[s]? = some scope ∧ tree.Hosts m ∧
      scope.span = tree.span (some m) ∧
      (tree.span (some m) = tree.span tree.root ∨ (tree.span (some m)).contains pos) := by
  obtain ⟨start, is_start, around⟩ := fits.around_scopeAt
  rw [lookup, is_start] at found
  obtain ⟨s, scope, at_s, mem, place⟩ := around.lookupWithin found
  obtain ⟨entry', is_entry', home⟩ := fits.home s scope at_s decl mem
  cases is_entry.symm.trans is_entry'
  obtain ⟨scope', m, at_s', hosts, span⟩ := fits.bindings decl entry s is_entry is_variable home
  cases at_s.symm.trans at_s'
  refine ⟨s, scope, m, home, at_s, hosts, span, ?_⟩
  rw [← span]
  rcases place with rfl | holds
  · obtain ⟨outermost, at_zero, -, root⟩ := fits.outermost
    cases at_s.symm.trans at_zero
    exact .inl root
  · exact .inr holds

end ScopeTable

end LuaTyping
