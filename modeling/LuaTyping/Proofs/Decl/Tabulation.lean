import LuaTyping.Proofs.Decl.Scopes
import LuaTyping.Proofs.Decl.Snapshot
import Mathlib.Data.Nat.Find

/-!
# The tables of a file

A declaration is entered in the tables with the number that it carries, when it is recorded. That
the tables list what they are to list rests on how the walk does this: each declaration is recorded
with the next number and before another one is made (`Entry.Fresh`), so its number is its place
among the declarations, and greater than all numbers entered before. Recording a fresh declaration
therefore keeps every list ascending and complete, and nothing else that the walk does touches the
tables (`Collector.Tabulated`).
-/

set_option autoImplicit false

namespace LuaTyping

theorem ListTable.list_addIf {κ β : Type} [BEq κ] [Hashable κ] [LawfulBEq κ]
    (table : ListTable κ β) (key? : Option κ) (key : κ) (value : β) :
    (table.addIf key? value).list key
      = table.list key ++ if key? == some key then [value] else [] := by
  cases key? with
  | none => simp [addIf]
  | some other =>
    rw [addIf, list_add, Option.some_beq_some]

namespace ScopeTable

/-- The list holds exactly the numbers of the matching declarations, in ascending order. -/
structure Lists (table : ScopeTable) (matching : Entry → Prop) (list : List Nat) : Prop where
  ascending : list.Pairwise (· < ·)
  mem_iff : ∀ d, d ∈ list ↔ ∃ entry, table.entry? d = some entry ∧ matching entry

/-- The number is the smallest one of a matching declaration. -/
structure IsFirst (table : ScopeTable) (matching : Entry → Prop) (d : Nat) : Prop where
  here : ∃ entry, table.entry? d = some entry ∧ matching entry
  least : ∀ d' entry, table.entry? d' = some entry → matching entry → d ≤ d'

section Lists

variable {table : ScopeTable} {matching other : Entry → Prop} {list : List Nat}

theorem Lists.congr (lists : table.Lists matching list)
    (same : ∀ entry, matching entry ↔ other entry) : table.Lists other list :=
  ⟨lists.ascending, fun d => (lists.mem_iff d).trans (by simp only [same])⟩

/-- The first of the list is the smallest of the matching numbers. -/
theorem Lists.head?_eq_some_iff (lists : table.Lists matching list) {d : Nat} :
    list.head? = some d ↔ table.IsFirst matching d := by
  constructor
  · intro first
    obtain ⟨rest, rfl⟩ := List.head?_eq_some_iff.mp first
    refine ⟨(lists.mem_iff d).mp List.mem_cons_self, fun d' entry found matches_ => ?_⟩
    rcases List.mem_cons.mp ((lists.mem_iff d').mpr ⟨entry, found, matches_⟩) with rfl | mem
    · exact Nat.le_refl d'
    · exact Nat.le_of_lt (List.rel_of_pairwise_cons lists.ascending mem)
  · rintro ⟨here, least⟩
    cases list with
    | nil => simpa using (lists.mem_iff d).mpr here
    | cons first rest =>
      obtain ⟨entry, found, matches_⟩ := (lists.mem_iff first).mp List.mem_cons_self
      have below := least first entry found matches_
      rcases List.mem_cons.mp ((lists.mem_iff d).mpr here) with rfl | mem
      · rfl
      · have := List.rel_of_pairwise_cons lists.ascending mem
        omega

end Lists

/-! ## Recording a declaration -/

variable {table : ScopeTable} {entry : Entry} {κ : Type}

theorem lt_size_of_found {d : Nat} (found : table.entry? d = some entry) :
    d < table.entries.size := (Array.getElem?_eq_some_iff.mp found).1

/-- The matching declarations are those before and the new one, if it matches. -/
theorem exists_entry?_declare {matching : Entry → Prop} {d : Nat} :
    (∃ known, ScopeTable.entry? (table.declare entry) d = some known ∧ matching known) ↔
      (∃ known, table.entry? d = some known ∧ matching known) ∨
        d = table.entries.size ∧ matching entry := by
  rw [entry?_declare]
  split
  · rename_i last
    have unknown : table.entry? table.entries.size = none := by simp [ScopeTable.entry?]
    simp [last, unknown]
  · rename_i old
    simp [old]

/-- The table lists under each key the declarations to which `key?` gives it. -/
def Tabulates [BEq κ] [Hashable κ] (table : ScopeTable) (key? : Entry → Option κ)
    (lists : ListTable κ Nat) : Prop :=
  ∀ key, table.Lists (fun entry => key? entry = some key) (lists.list key)

variable [BEq κ] [Hashable κ] {key? : Entry → Option κ} {lists : ListTable κ Nat}

theorem tabulates_empty : empty.Tabulates key? .empty := by
  intro key
  constructor <;> simp [ListTable.list, ListTable.empty, ScopeTable.entry?, empty]

/-- Only the declarations matter. -/
theorem Tabulates.of_entries {table' : ScopeTable} (h : table.Tabulates key? lists)
    (same : table'.entries = table.entries) : table'.Tabulates key? lists :=
  fun key => ⟨(h key).ascending, fun d => by
    rw [(h key).mem_iff, ScopeTable.entry?, ScopeTable.entry?, same]⟩

theorem Tabulates.declare [LawfulBEq κ] (h : table.Tabulates key? lists)
    (next : entry.id = table.entries.size) :
    (table.declare entry).Tabulates key? (lists.addIf (key? entry) entry.id) := by
  intro key
  rw [ListTable.list_addIf]
  constructor
  · refine List.pairwise_append.mpr ⟨(h key).ascending, by split <;> simp, fun d mem d' new => ?_⟩
    obtain ⟨known, found, -⟩ := ((h key).mem_iff d).mp mem
    have last : d' = table.entries.size := by
      split at new
      · exact (List.mem_singleton.mp new).trans next
      · cases new
    exact last ▸ lt_size_of_found found
  · intro d
    rw [List.mem_append, (h key).mem_iff, exists_entry?_declare, next]
    split <;> simp_all

/-- The map gives to each node the first declaration at it. -/
def FirstAt (table : ScopeTable) (byNode : Std.HashMap Nat Nat) : Prop :=
  ∀ node d, byNode[node]? = some d ↔ table.IsFirst (fun entry => entry.node = some node) d

variable {byNode : Std.HashMap Nat Nat}

theorem firstAt_empty : empty.FirstAt ∅ := by
  intro node d
  simp only [Std.HashMap.getElem?_empty, reduceCtorEq, false_iff]
  rintro ⟨⟨entry, found, -⟩, -⟩
  simp [ScopeTable.entry?, empty] at found

/-- A node that is known keeps its first declaration. -/
theorem isFirst_declare {matching : Entry → Prop} {d : Nat} :
    (table.declare entry).IsFirst matching d ↔
      table.IsFirst matching d ∨ d = table.entries.size ∧ matching entry ∧
        ∀ d' known, table.entry? d' = some known → ¬ matching known := by
  constructor
  · rintro ⟨here, least⟩
    have old_least (d' : Nat) (known : Entry) (found : table.entry? d' = some known) :=
      least d' known ((table.grows_declare entry).entry d' known found)
    rcases exists_entry?_declare.mp here with old | ⟨rfl, matches_⟩
    · exact .inl ⟨old, old_least⟩
    · refine .inr ⟨rfl, matches_, fun d' known found matches' => ?_⟩
      exact Nat.not_le.mpr (lt_size_of_found found) (old_least d' known found matches')
  · rintro (⟨here, least⟩ | ⟨rfl, matches_, others⟩)
    · refine ⟨exists_entry?_declare.mpr (.inl here), fun d' known found matches' => ?_⟩
      rcases exists_entry?_declare.mp ⟨known, found, matches'⟩ with ⟨_, found, old⟩ | ⟨rfl, -⟩
      · exact least d' _ found old
      · obtain ⟨first, found_first, -⟩ := here
        exact Nat.le_of_lt (lt_size_of_found found_first)
    · refine ⟨exists_entry?_declare.mpr (.inr ⟨rfl, matches_⟩), fun d' known found matches' => ?_⟩
      rcases exists_entry?_declare.mp ⟨known, found, matches'⟩ with ⟨_, found, old⟩ | ⟨rfl, -⟩
      · exact absurd old (others d' _ found)
      · exact Nat.le_refl _

theorem IsFirst.of_entries {table' : ScopeTable} {matching : Entry → Prop} {d : Nat}
    (h : table.IsFirst matching d) (same : table'.entries = table.entries) :
    table'.IsFirst matching d where
  here := by simpa only [ScopeTable.entry?, same] using h.here
  least := by simpa only [ScopeTable.entry?, same] using h.least

theorem FirstAt.of_entries {table' : ScopeTable} (h : table.FirstAt byNode)
    (same : table'.entries = table.entries) : table'.FirstAt byNode :=
  fun node d => (h node d).trans ⟨fun first => first.of_entries same,
    fun first => first.of_entries same.symm⟩

theorem FirstAt.mem_iff (h : table.FirstAt byNode) {node : Nat} :
    node ∈ byNode ↔ ∃ d known, table.entry? d = some known ∧ known.node = some node := by
  rw [Std.HashMap.mem_iff_isSome_getElem?, Option.isSome_iff_exists]
  constructor
  · rintro ⟨d, first⟩
    exact ⟨d, ((h node d).mp first).here⟩
  · intro known
    classical
    exact ⟨Nat.find known, (h node _).mpr ⟨Nat.find_spec known, fun d entry found at_node =>
      Nat.find_min' known ⟨entry, found, at_node⟩⟩⟩

theorem FirstAt.declare (h : table.FirstAt byNode) (next : entry.id = table.entries.size) :
    (table.declare entry).FirstAt
      (match entry.node with
        | some node => byNode.insertIfNew node entry.id
        | none => byNode) := by
  intro node d
  rw [isFirst_declare, ← h node d]
  cases at_node : entry.node with
  | none => simp
  | some own =>
    dsimp only
    rw [Std.HashMap.getElem?_insertIfNew]
    by_cases new : own = node ∧ own ∉ byNode
    · obtain ⟨rfl, unknown⟩ := new
      have none_before (d' : Nat) (known : Entry) (found : table.entry? d' = some known) :
          ¬ known.node = some own :=
        fun at_own => unknown (h.mem_iff.mpr ⟨d', known, found, at_own⟩)
      rw [if_pos ⟨beq_self_eq_true own, unknown⟩, Std.HashMap.getElem?_eq_none unknown, next]
      simp only [Option.some.injEq, reduceCtorEq, false_or, true_and]
      exact ⟨fun last => ⟨last.symm, none_before⟩, fun last => last.1.symm⟩
    · rw [if_neg fun eq => new ⟨beq_iff_eq.mp eq.1, eq.2⟩]
      refine ⟨.inl, fun found => found.resolve_right ?_⟩
      rintro ⟨-, same, unknown⟩
      refine new ⟨Option.some.inj same, fun known => ?_⟩
      obtain ⟨d', entry', found, at_own⟩ := h.mem_iff.mp known
      exact unknown d' entry' found (at_own.trans same)

end ScopeTable

/-! ## The walk -/

namespace Collector

/-- Every declaration carries the number of its place, and the tables list what they are to list. -/
structure Tabulated (c : Collector) : Prop where
  numbered : ∀ d entry, c.table.entry? d = some entry → entry.id = d
  byName : c.table.Tabulates (fun entry => some entry.name) c.tables.byName
  classes : c.table.Tabulates (Entry.nameIf .classDecl) c.tables.classes
  aliases : c.table.Tabulates (Entry.nameIf .aliasDecl) c.tables.aliases
  globals : c.table.Tabulates (Entry.nameIf .global) c.tables.globals
  members : c.table.Tabulates Entry.memberOwner? c.tables.members
  byNode : c.table.FirstAt c.tables.byNode

/-- Neither the scopes matter nor where the walk is. -/
theorem Tabulated.of_eq {c c' : Collector} (h : c.Tabulated)
    (entries : c'.table.entries = c.table.entries) (tables : c'.tables = c.tables) :
    c'.Tabulated where
  numbered d entry found := h.numbered d entry (by rwa [ScopeTable.entry?, entries] at found)
  byName := tables ▸ h.byName.of_entries entries
  classes := tables ▸ h.classes.of_entries entries
  aliases := tables ▸ h.aliases.of_entries entries
  globals := tables ▸ h.globals.of_entries entries
  members := tables ▸ h.members.of_entries entries
  byNode := tables ▸ h.byNode.of_entries entries

end Collector

namespace Collect

theorem tabulated_declare {c : Collector} (h : c.Tabulated) {entry : Entry}
    (fresh : entry.Fresh c) : (declare entry c).2.Tabulated where
  numbered d known found := by
    rw [declare, ScopeTable.entry?_declare] at found
    split at found
    · rename_i last
      cases found
      exact fresh.id.trans last.symm
    · exact h.numbered d known found
  byName := h.byName.declare fresh.id
  classes := h.classes.declare fresh.id
  aliases := h.aliases.declare fresh.id
  globals := h.globals.declare fresh.id
  members := h.members.declare fresh.id
  byNode := h.byNode.declare fresh.id

theorem tabulated_inScope (kind : ScopeKind) (span : Span) (function : NodeRef)
    {body : CollectM Unit} (inside : Keeps Collector.Tabulated body) :
    Keeps Collector.Tabulated (inScope kind span function body) := by
  refine Keeps.bind (fun c h => h.of_eq rfl rfl) fun _ => inside.bind fun _ c h => ?_
  rw [closeScope, snd_modify]
  split
  · exact h.of_eq rfl rfl
  · exact h

theorem lasting_tabulated (tree : Tree) : Lasting tree fun _ : Unit => Collector.Tabulated where
  declare h fresh := tabulated_declare h fresh
  note h notes := h.of_eq (congrArg _ notes.table) notes.tables
  enclosed _ _ _ kind function _ inside _ := tabulated_inScope kind _ function (inside ())

theorem tabulated_start : start.Tabulated where
  numbered d entry found := by simp [start, ScopeTable.entry?, ScopeTable.empty] at found
  byName := ScopeTable.tabulates_empty
  classes := ScopeTable.tabulates_empty
  aliases := ScopeTable.tabulates_empty
  globals := ScopeTable.tabulates_empty
  members := ScopeTable.tabulates_empty
  byNode := ScopeTable.firstAt_empty

/-- When the walk is over, the tables list what they are to list. -/
theorem tabulated_run (tree : Tree) : (run tree).Tabulated := by
  unfold run
  split
  · refine tabulated_inScope _ _ _ (fun c h => ?_) start tabulated_start
    exact (lasting_tabulated tree).visitWithin
      (fun kind span function _ inside _ => tabulated_inScope kind span function (inside ())) _ _ ()
      c h
  · exact tabulated_start

end Collect

end LuaTyping
