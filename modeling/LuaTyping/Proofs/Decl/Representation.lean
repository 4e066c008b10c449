import LuaTyping.Proofs.Decl.Tables
import LuaTyping.Proofs.Decl.Walks

/-!
# What is recorded of a file

The scopes and declarations of a file refer to each other by number. The walk that collects them
makes these references agree: the first scope is the outermost one, a scope is listed in the scope
around it, a declaration in the scope it names, and the parameters noted of a function are declared
as parameters. A part of the walk ends in the scope in which it began and leaves the numbers that
were given out before it as they were (`Since`); only therefore does every declaration find a scope
to stand in.
-/

set_option autoImplicit false

namespace LuaTyping

namespace ScopeTable

/-- The declaration is listed in the scope. -/
def Listed (table : ScopeTable) (d s : Nat) : Prop :=
  ∃ scope, table.scopes[s]? = some scope ∧ d ∈ scope.decls

/-- The scopes form a tree with the first one at its root, and each declaration is listed in one
scope, the one it names. -/
structure Consistent (table : ScopeTable) : Prop where
  ordered : table.Ordered
  outermost : ∀ (s : Nat) scope, table.scopes[s]? = some scope → (scope.parent = none ↔ s = 0)
  links : ∀ s t, table.Inward s t ↔ table.Outward t s
  listed : ∀ d s, table.Listed d s ↔ ∃ entry, table.entry? d = some entry ∧ entry.scope = some s
  placed : ∀ d entry, table.entry? d = some entry → ∃ s, entry.scope = some s
  ascending : ∀ (s : Nat) scope, table.scopes[s]? = some scope →
    scope.decls.toList.Pairwise (· < ·) ∧ scope.children.toList.Pairwise (· < ·)

variable {table : ScopeTable}

theorem pairwise_push {numbers : Array Nat} {next : Nat}
    (ascending : numbers.toList.Pairwise (· < ·)) (above : ∀ n ∈ numbers, n < next) :
    (numbers.push next).toList.Pairwise (· < ·) := by
  rw [Array.toList_push, List.pairwise_append]
  refine ⟨ascending, List.pairwise_singleton _ _, fun n mem m is_next => ?_⟩
  cases List.mem_singleton.mp is_next
  exact above n (Array.mem_toList_iff.mp mem)

/-! ## Declaring -/

theorem outward_declare {entry : Entry} {t s : Nat} :
    (table.declare entry).Outward t s ↔ table.Outward t s := by
  simp only [Outward, scopes_declare, Option.map_eq_some_iff]
  constructor
  · rintro ⟨_, ⟨scope, found, rfl⟩, parent⟩
    exact ⟨scope, found, by split at parent <;> exact parent⟩
  · rintro ⟨scope, found, parent⟩
    exact ⟨_, ⟨scope, found, rfl⟩, by split <;> exact parent⟩

theorem inward_declare {entry : Entry} {s t : Nat} :
    (table.declare entry).Inward s t ↔ table.Inward s t := by
  simp only [Inward, scopes_declare, Option.map_eq_some_iff]
  constructor
  · rintro ⟨_, ⟨scope, found, rfl⟩, mem⟩
    exact ⟨scope, found, by split at mem <;> exact mem⟩
  · rintro ⟨scope, found, mem⟩
    exact ⟨_, ⟨scope, found, rfl⟩, by split <;> exact mem⟩

theorem listed_declare {entry : Entry} {d s : Nat} (there : s < table.scopes.size) :
    (table.declare entry).Listed d s ↔
      table.Listed d s ∨ d = entry.id ∧ entry.scope = some s := by
  have found : table.scopes[s]? = some table.scopes[s] := Array.getElem?_eq_getElem there
  simp only [Listed, scopes_declare, found, Option.map_some, Option.some.injEq, exists_eq_left']
  split <;> simp_all [Array.mem_push]

theorem Listed.lt_size {d s : Nat} (h : table.Listed d s) : s < table.scopes.size := by
  obtain ⟨_, found, -⟩ := h
  exact (Array.getElem?_eq_some_iff.mp found).1

namespace Consistent

theorem declare (h : table.Consistent) {entry : Entry} {home : Nat}
    (next : entry.id = table.entries.size) (here : entry.scope = some home)
    (there : home < table.scopes.size) :
    (table.declare entry).Consistent where
  ordered := h.ordered.declare entry
  outermost s scope found := by
    rw [scopes_declare] at found
    obtain ⟨before, was, rfl⟩ := Option.map_eq_some_iff.mp found
    rw [← h.outermost s before was]
    split <;> rfl
  links s t := by rw [inward_declare, outward_declare, h.links]
  listed d s := by
    constructor
    · intro listed
      have valid : s < table.scopes.size := size_scopes_declare entry ▸ listed.lt_size
      rcases (listed_declare valid).mp listed with old | ⟨rfl, here⟩
      · obtain ⟨known, found, names⟩ := (h.listed d s).mp old
        exact ⟨known, (table.grows_declare entry).entry d known found, names⟩
      · exact ⟨entry, by rw [entry?_declare, if_pos next], here⟩
    · rintro ⟨known, found, names⟩
      rw [entry?_declare] at found
      split at found
      · cases found
        cases here.symm.trans names
        rename_i last
        exact (listed_declare there).mpr (.inr ⟨last.trans next.symm, here⟩)
      · have old := (h.listed d s).mpr ⟨known, found, names⟩
        exact (listed_declare old.lt_size).mpr (.inl old)
  placed d known found := by
    rw [entry?_declare] at found
    split at found
    · cases found
      exact ⟨home, here⟩
    · exact h.placed d known found
  ascending s scope found := by
    rw [scopes_declare] at found
    obtain ⟨before, was, rfl⟩ := Option.map_eq_some_iff.mp found
    obtain ⟨decls, children⟩ := h.ascending s before was
    split
    · refine ⟨pairwise_push decls fun d mem => ?_, children⟩
      obtain ⟨known, found, -⟩ := (h.listed d s).mp ⟨before, was, mem⟩
      exact next ▸ lt_size_of_found found
    · exact ⟨decls, children⟩

end Consistent

/-! ## Opening a scope -/

section OpenScope

variable {kind : ScopeKind} {span : Span} {function : NodeRef} {outer : Nat}

theorem outward_openScope {t s : Nat} :
    (table.openScope (some outer) kind span function).2.Outward t s ↔
      table.Outward t s ∨ s = table.scopes.size ∧ outer = t := by
  simp only [Outward, scopes_openScope, Option.map_eq_some_iff]
  constructor
  · rintro ⟨_, ⟨scope, found, rfl⟩, parent⟩
    have parent : scope.parent = some t := by split at parent <;> exact parent
    split at found
    · cases found
      exact .inr ⟨‹_›, Option.some.inj parent⟩
    · exact .inl ⟨scope, found, parent⟩
  · rintro (⟨scope, found, parent⟩ | ⟨rfl, rfl⟩)
    · have old : s ≠ table.scopes.size := by
        rintro rfl
        simp at found
      exact ⟨_, ⟨scope, by rw [if_neg old, found], rfl⟩, by split <;> exact parent⟩
    · exact ⟨_, ⟨_, if_pos rfl, rfl⟩, by split <;> rfl⟩

theorem inward_openScope (there : outer < table.scopes.size) {s t : Nat} :
    (table.openScope (some outer) kind span function).2.Inward s t ↔
      table.Inward s t ∨ s = table.scopes.size ∧ outer = t := by
  simp only [Inward, scopes_openScope, Option.map_eq_some_iff]
  constructor
  · rintro ⟨_, ⟨scope, found, rfl⟩, mem⟩
    have old (mem : s ∈ scope.children) : table.Inward s t := by
      split at found
      · cases found
        simp at mem
      · exact ⟨scope, found, mem⟩
    split at mem
    · rename_i here
      exact (Array.mem_push.mp mem).imp old fun new => ⟨new, Option.some.inj here⟩
    · exact .inl (old mem)
  · rintro (⟨scope, found, mem⟩ | ⟨rfl, rfl⟩)
    · have old : t ≠ table.scopes.size := by
        rintro rfl
        simp at found
      refine ⟨_, ⟨scope, by rw [if_neg old, found], rfl⟩, ?_⟩
      split
      · exact Array.mem_push_of_mem _ mem
      · exact mem
    · have found : table.scopes[outer]? = some table.scopes[outer] :=
        Array.getElem?_eq_getElem there
      refine ⟨_, ⟨_, by rw [if_neg (Nat.ne_of_lt there), found], rfl⟩, ?_⟩
      rw [if_pos rfl]
      exact Array.mem_push_self

theorem listed_openScope {parent : Option Nat} {d s : Nat} :
    (table.openScope parent kind span function).2.Listed d s ↔ table.Listed d s := by
  simp only [Listed, scopes_openScope, Option.map_eq_some_iff]
  constructor
  · rintro ⟨_, ⟨scope, found, rfl⟩, mem⟩
    have mem : d ∈ scope.decls := by split at mem <;> exact mem
    split at found
    · cases found
      simp at mem
    · exact ⟨scope, found, mem⟩
  · rintro ⟨scope, found, mem⟩
    have old : s ≠ table.scopes.size := by
      rintro rfl
      simp at found
    exact ⟨_, ⟨scope, by rw [if_neg old, found], rfl⟩, by split <;> exact mem⟩

theorem Consistent.openScope (h : table.Consistent) (there : outer < table.scopes.size)
    (kind : ScopeKind) (span : Span) (function : NodeRef) :
    (table.openScope (some outer) kind span function).2.Consistent where
  ordered := h.ordered.openScope (by rintro _ ⟨⟩; exact there) kind span function
  outermost s scope found := by
    rw [scopes_openScope] at found
    obtain ⟨before, was, rfl⟩ := Option.map_eq_some_iff.mp found
    have parent : before.parent = none ↔ s = 0 := by
      split at was
      · cases was
        have : s ≠ 0 := by omega
        simp [this]
      · exact h.outermost s before was
    rw [← parent]
    split <;> rfl
  links s t := by rw [inward_openScope there, outward_openScope, h.links]
  listed d s := listed_openScope.trans (h.listed d s)
  placed := h.placed
  ascending s scope found := by
    rw [scopes_openScope] at found
    obtain ⟨before, was, rfl⟩ := Option.map_eq_some_iff.mp found
    have old : before.decls.toList.Pairwise (· < ·) ∧ before.children.toList.Pairwise (· < ·) := by
      split at was
      · cases was
        exact ⟨.nil, .nil⟩
      · exact h.ascending s before was
    have above : ∀ inner ∈ before.children, inner < table.scopes.size := by
      intro inner mem
      split at was
      · cases was
        simp at mem
      · exact (h.ordered.inward ⟨before, was, mem⟩).2
    split
    · exact ⟨old.1, pairwise_push old.2 above⟩
    · exact old

/-- The scope of the whole file, before anything is declared in it. -/
theorem consistent_file (span : Span) :
    (empty.openScope none .file span none).2.Consistent := by
  have only {s : Nat} {scope : Scope}
      (found : (empty.openScope none .file span none).2.scopes[s]? = some scope) :
      s = 0 ∧ scope = ⟨.file, none, span, #[], #[], none⟩ := by
    simp [scopes_openScope, empty] at found
    exact ⟨found.1, found.2.symm⟩
  refine ⟨Ordered.empty.openScope (by simp) .file span none, fun s scope found => ?_,
    fun s t => ?_, fun d s => ?_, fun d entry found => ?_, fun s scope found => ?_⟩
  · simp [only found]
  · constructor
    · rintro ⟨scope, found, mem⟩
      simp [only found] at mem
    · rintro ⟨scope, found, parent⟩
      simp [only found] at parent
  · constructor
    · rintro ⟨scope, found, mem⟩
      simp [only found] at mem
    · rintro ⟨entry, found, -⟩
      simp [ScopeTable.entry?, ScopeTable.openScope, empty] at found
  · simp [ScopeTable.entry?, ScopeTable.openScope, empty] at found
  · rw [(only found).2]
    exact ⟨.nil, .nil⟩

end OpenScope

theorem consistent_empty : empty.Consistent := by
  refine ⟨.empty, fun s scope found => ?_, fun s t => ?_, fun d s => ?_, fun d entry found => ?_,
    fun s scope found => ?_⟩
  · simp [empty] at found
  · simp [Inward, Outward, empty]
  · simp [Listed, ScopeTable.entry?, empty]
  · simp [ScopeTable.entry?, empty] at found
  · simp [empty] at found

theorem IsParam.mono {old new : ScopeTable} {d : Nat} (grows : old.Grows new)
    (h : old.IsParam d) : new.IsParam d := by
  obtain ⟨entry, found, kind⟩ := h
  exact ⟨entry, grows.entry d entry found, kind⟩

end ScopeTable

/-! ## The walk -/

namespace Collector

/-- The second state is in the scope of the first and has all that it has recorded. -/
structure Since (start c : Collector) : Prop where
  scope : c.scope = start.scope
  grows : start.table.Grows c.table

/-- What is recorded is consistent, and the walk is in a scope that is recorded. -/
structure Sound (c : Collector) : Prop where
  table : c.table.Consistent
  current : ∃ s, c.scope = some s ∧ s < c.table.scopes.size
  params : ∀ (n : Nat) info, c.functions[n]? = some info → ∀ d ∈ info.params, c.table.IsParam d

theorem Since.refl (c : Collector) : c.Since c := ⟨rfl, .refl c.table⟩

theorem Since.trans {a b c : Collector} (first : a.Since b) (second : b.Since c) : a.Since c :=
  ⟨second.scope.trans first.scope, first.grows.trans second.grows⟩

end Collector

namespace Collect

variable {tree : Tree}

theorem since_declare (entry : Entry) (c : Collector) : c.Since (declare entry c).2 :=
  ⟨rfl, c.table.grows_declare entry⟩

theorem since_notes {c c' : Collector} (notes : c.Notes tree c') : c.Since c' :=
  ⟨notes.scope, notes.table ▸ .refl c.table⟩

/-- Going into a scope and, after a part of the walk that ends in it, out again. -/
theorem since_closeScope {c after : Collector} {kind : ScopeKind} {span : Span}
    {function : NodeRef} (inside : (openScope kind span function c).2.Since after) :
    c.Since (closeScope after).2 ∧ (closeScope after).2 = { after with scope := c.scope } := by
  obtain ⟨scope, found, parent, -⟩ := c.table.exists_openScope c.scope kind span function
  obtain ⟨scope', found', parent', -⟩ := inside.grows.scope _ scope found
  have at_scope : after.table.scope? after.scope = some scope' := by
    rw [inside.scope]
    exact found'
  have closed : (closeScope after).2 = { after with scope := c.scope } := by
    rw [closeScope_of_scope? at_scope, parent', parent]
  refine ⟨?_, closed⟩
  rw [closed]
  exact ⟨rfl, (c.table.grows_openScope c.scope kind span function).trans inside.grows⟩

theorem since_inScope (kind : ScopeKind) (span : Span) (function : NodeRef) (body : CollectM Unit)
    (inside : ∀ start, Keeps (Collector.Since start) body) (start : Collector) :
    Keeps (Collector.Since start) (inScope kind span function body) :=
  fun _ h => h.trans (since_closeScope (inside _ _ (.refl _))).1

theorem lasting_since : Lasting tree Collector.Since where
  declare h _ := h.trans (since_declare _ _)
  note h notes := h.trans (since_notes notes)
  enclosed _ _ _ kind function _ inside start := since_inScope kind _ function _ inside start

/-- Every part of the walk ends where it began, and nothing that was recorded is lost. -/
theorem since_visitWithin (tree : Tree) (depth : Nat) (v : Visit) (c : Collector) :
    c.Since (visitWithin tree depth v c).2 :=
  lasting_since.visitWithin since_inScope depth v c c (.refl c)

theorem sound_declare {c : Collector} (sound : c.Sound) {entry : Entry}
    (fresh : entry.Fresh c) : (declare entry c).2.Sound where
  table := by
    obtain ⟨s, is_scope, there⟩ := sound.current
    exact sound.table.declare fresh.id (fresh.scope.trans is_scope) there
  current := by
    obtain ⟨s, is_scope, there⟩ := sound.current
    exact ⟨s, is_scope, (ScopeTable.size_scopes_declare entry).symm ▸ there⟩
  params n info found d mem := (sound.params n info found d mem).mono (c.table.grows_declare entry)

theorem sound_notes {c c' : Collector} (sound : c.Sound) (notes : c.Notes tree c') : c'.Sound where
  table := notes.table ▸ sound.table
  current := notes.table ▸ notes.scope ▸ sound.current
  params n info found := by
    rw [notes.table]
    rcases notes.functions n info found with ⟨before, was, same, -⟩ | describes
    · exact same ▸ sound.params n before was
    · exact describes.params

theorem sound_openScope {c : Collector} (sound : c.Sound) (kind : ScopeKind) (span : Span)
    (function : NodeRef) : (openScope kind span function c).2.Sound where
  table := by
    obtain ⟨s, is_scope, there⟩ := sound.current
    simp only [openScope, snd_modify, is_scope]
    exact sound.table.openScope there kind span function
  current := by
    obtain ⟨_, found, -⟩ := c.table.exists_openScope c.scope kind span function
    exact ⟨_, rfl, (Array.getElem?_eq_some_iff.mp found).1⟩
  params n info found d mem := sound.params n info found d mem

theorem sound_closeScope {c after : Collector} {kind : ScopeKind} {span : Span}
    {function : NodeRef} (sound : c.Sound) (inside : (openScope kind span function c).2.Since after)
    (sound_inside : after.Sound) : (closeScope after).2.Sound := by
  obtain ⟨outside, closed⟩ := since_closeScope inside
  rw [closed] at outside ⊢
  refine ⟨sound_inside.table, ?_, sound_inside.params⟩
  obtain ⟨s, is_scope, there⟩ := sound.current
  obtain ⟨_, found, -⟩ := outside.grows.scope s _ (Array.getElem?_eq_getElem there)
  exact ⟨s, is_scope, (Array.getElem?_eq_some_iff.mp found).1⟩

theorem sound_inScope (kind : ScopeKind) (span : Span) (function : NodeRef) (body : CollectM Unit)
    (inside : ∀ start : Collector, Keeps (fun c => start.Since c ∧ c.Sound) body)
    (start : Collector) :
    Keeps (fun c => start.Since c ∧ c.Sound) (inScope kind span function body) := by
  rintro c ⟨since, sound⟩
  obtain ⟨since', sound'⟩ := inside _ _ ⟨.refl _, sound_openScope sound kind span function⟩
  exact ⟨since.trans (since_closeScope since').1, sound_closeScope sound since' sound'⟩

theorem lasting_sound :
    Lasting tree fun (start : Collector) c => start.Since c ∧ c.Sound where
  declare h fresh := ⟨h.1.trans (since_declare _ _), sound_declare h.2 fresh⟩
  note h notes := ⟨h.1.trans (since_notes notes), sound_notes h.2 notes⟩
  enclosed _ _ _ kind function _ inside start := sound_inScope kind _ function _ inside start

theorem sound_visitWithin {c : Collector} (sound : c.Sound) (tree : Tree) (depth : Nat)
    (v : Visit) : (visitWithin tree depth v c).2.Sound :=
  (lasting_sound.visitWithin sound_inScope depth v c c ⟨.refl c, sound⟩).2

/-- The scope of the whole file is opened first. -/
theorem sound_file (span : Span) : (openScope .file span none start).2.Sound := by
  refine ⟨ScopeTable.consistent_file span, ⟨0, rfl, ?_⟩, fun n info found => ?_⟩
  · simp [openScope, snd_modify, start, ScopeTable.openScope, ScopeTable.empty]
  · simp [openScope, snd_modify, start] at found

/-- What a walk records is consistent, and the parameters that it notes are declared as such. -/
theorem consistent_run (tree : Tree) :
    (run tree).table.Consistent ∧ ∀ (n : Nat) info, (run tree).functions[n]? = some info →
      ∀ d ∈ info.params, (run tree).table.IsParam d := by
  unfold run
  split
  · rename_i block _
    have walked :=
      sound_visitWithin (sound_file (tree.span tree.root)) tree (depthBound tree) (.stmts block)
    obtain ⟨-, closed⟩ :=
      since_closeScope (since_visitWithin tree (depthBound tree) (.stmts block) _)
    have done : ((inScope .file (tree.span tree.root) none
        (visitWithin tree (depthBound tree) (.stmts block))).run start).2 = _ := closed
    rw [done]
    exact ⟨walked.table, walked.params⟩
  · refine ⟨ScopeTable.consistent_empty, fun n info found => ?_⟩
    simp [start] at found

end Collect

/-! ## The declarations of a file -/

/-- Every declaration of a file carries its number, the tables list exactly the declarations that
they are to list, and scopes, declarations and functions refer to each other consistently. -/
structure FileDecls.Consistent (decls : FileDecls) : Prop where
  numbered : ∀ d entry, decls.entry? d = some entry → entry.id = d
  byName : ∀ name, decls.table.Lists (fun entry => entry.name = name) (decls.byName.list name)
  classes : ∀ name, decls.table.Lists
    (fun entry => entry.kind = .classDecl ∧ entry.name = name) (decls.classDecls name)
  aliases : ∀ name, decls.table.Lists
    (fun entry => entry.kind = .aliasDecl ∧ entry.name = name) (decls.aliasDecls name)
  globals : ∀ name, decls.table.Lists
    (fun entry => entry.kind = .global ∧ entry.name = name) (decls.globalDecls name)
  members : ∀ owner, decls.table.Lists
    (fun entry => (entry.kind = .field ∨ entry.kind = .function) ∧ entry.owner = some owner)
    (decls.memberDecls owner)
  nodes : ∀ node d, decls.declForNode? (some node) = some d ↔
    (∃ entry, decls.entry? d = some entry ∧ entry.node = some node) ∧
      ∀ d' entry, decls.entry? d' = some entry → entry.node = some node → d ≤ d'
  scopes : decls.table.Consistent
  params : ∀ node info, decls.function? node = some info →
    ∀ d ∈ info.params, decls.table.IsParam d

/-- Whatever the tree, what is recorded of it is consistent. -/
theorem FileDecls.consistent_ofTree (file : FileId) (tree : Tree) :
    (ofTree file tree).Consistent := by
  have tabulated := Collect.tabulated_run tree
  obtain ⟨scopes, params⟩ := Collect.consistent_run tree
  exact {
    numbered := tabulated.numbered
    byName name := (tabulated.byName name).congr fun entry => by simp
    classes name := (tabulated.classes name).congr fun _ => Entry.nameIf_eq_some_iff
    aliases name := (tabulated.aliases name).congr fun _ => Entry.nameIf_eq_some_iff
    globals name := (tabulated.globals name).congr fun _ => Entry.nameIf_eq_some_iff
    members owner := (tabulated.members owner).congr fun entry => by
      cases kind : entry.kind <;> simp [Entry.memberOwner?, DeclKind.isMember, kind]
    nodes node d := (tabulated.byNode node d).trans ⟨fun h => ⟨h.here, h.least⟩,
      fun h => ⟨h.1, h.2⟩⟩
    scopes
    params node info found := by
      obtain ⟨n, -, found⟩ := Option.bind_eq_some_iff.mp found
      exact params n info found }

end LuaTyping
