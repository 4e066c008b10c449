import LuaTyping.Decl.Resolve
import LuaTyping.Proofs.Decl.Scopes

/-!
# Walks through scopes

Resolving a name goes inward, from the outermost scope to the one that holds a position, and
outward, from there through the scopes around it. Neither walk looks at where it has been. Both end
because of the numbers: a scope is opened inside one that exists already, so it has a greater number
than the scope around it (`Ordered`). That holds for what is collected from any tree, also from one
whose nodes refer to each other in a circle.
-/

set_option autoImplicit false

namespace LuaTyping

namespace ScopeTable

variable {table : ScopeTable}

theorem size_scopes_declare (entry : Entry) :
    (table.declare entry).scopes.size = table.scopes.size := by
  rw [declare]
  cases entry.scope <;> simp

theorem size_scopes_openScope (parent : Option Nat) (kind : ScopeKind) (span : Span)
    (function : NodeRef) :
    (table.openScope parent kind span function).2.scopes.size = table.scopes.size + 1 := by
  cases parent <;> simp [ScopeTable.openScope]

/-- The second scope names the first as the one around it. -/
def Outward (table : ScopeTable) (next current : Nat) : Prop :=
  ∃ scope, table.scopes[current]? = some scope ∧ scope.parent = some next

/-- The second scope lists the first as one inside it. -/
def Inward (table : ScopeTable) (next current : Nat) : Prop :=
  ∃ scope, table.scopes[current]? = some scope ∧ next ∈ scope.children

/-- A scope has a greater number than the one around it and a smaller one than those inside it. -/
structure Ordered (table : ScopeTable) : Prop where
  outward : ∀ {next current : Nat}, table.Outward next current → next < current
  inward : ∀ {next current : Nat}, table.Inward next current →
    current < next ∧ next < table.scopes.size

namespace Ordered

theorem empty : ScopeTable.empty.Ordered where
  outward := by
    rintro next current ⟨scope, found, -⟩
    simp [ScopeTable.empty] at found
  inward := by
    rintro next current ⟨scope, found, -⟩
    simp [ScopeTable.empty] at found

theorem declare (ordered : table.Ordered) (entry : Entry) : (table.declare entry).Ordered := by
  -- a scope has the scopes inside and around it that it had before
  have old {current : Nat} {scope : Scope}
      (found : (table.declare entry).scopes[current]? = some scope) :
      ∃ before, table.scopes[current]? = some before ∧ scope.parent = before.parent ∧
        scope.children = before.children := by
    rw [scopes_declare] at found
    obtain ⟨before, was, rfl⟩ := Option.map_eq_some_iff.mp found
    exact ⟨before, was, by split <;> rfl, by split <;> rfl⟩
  constructor
  · rintro next current ⟨scope, found, inside⟩
    obtain ⟨before, found, parent, -⟩ := old found
    exact ordered.outward ⟨before, found, parent ▸ inside⟩
  · rintro next current ⟨scope, found, mem⟩
    obtain ⟨before, found, -, children⟩ := old found
    rw [size_scopes_declare]
    exact ordered.inward ⟨before, found, children ▸ mem⟩

theorem openScope (ordered : table.Ordered) {parent : Option Nat}
    (there : ∀ outer, parent = some outer → outer < table.scopes.size) (kind : ScopeKind)
    (span : Span) (function : NodeRef) :
    (table.openScope parent kind span function).2.Ordered := by
  constructor
  · rintro next current ⟨scope, found, inside⟩
    rw [scopes_openScope] at found
    obtain ⟨before, was, rfl⟩ := Option.map_eq_some_iff.mp found
    have inside : before.parent = some next := by split at inside <;> exact inside
    split at was
    · rename_i same
      cases was
      exact same ▸ there next inside
    · exact ordered.outward ⟨before, was, inside⟩
  · rintro next current ⟨scope, found, mem⟩
    rw [scopes_openScope] at found
    obtain ⟨before, was, rfl⟩ := Option.map_eq_some_iff.mp found
    rw [size_scopes_openScope]
    have earlier (mem : next ∈ before.children) :
        current < next ∧ next < table.scopes.size + 1 := by
      split at was
      · cases was
        simp at mem
      · have := ordered.inward ⟨before, was, mem⟩
        omega
    split at mem
    · rename_i outer
      rcases Array.mem_push.mp mem with mem | rfl
      · exact earlier mem
      · exact ⟨there current outer, Nat.lt_succ_self _⟩
    · exact earlier mem

end Ordered

end ScopeTable

/-! ## What is collected -/

/-- What is recorded is ordered, and the walk is in a scope that is recorded. -/
structure Collector.Nested (c : Collector) : Prop where
  ordered : c.table.Ordered
  current : ∀ s, c.scope = some s → s < c.table.scopes.size

namespace Collect

variable {tree : Tree}

theorem nested_openScope {c : Collector} (nested : c.Nested) (kind : ScopeKind) (span : Span)
    (function : NodeRef) : (openScope kind span function c).2.Nested where
  ordered := nested.ordered.openScope nested.current kind span function
  current s is_scope := by
    cases is_scope
    obtain ⟨scope, found, -⟩ := c.table.exists_openScope c.scope kind span function
    exact (Array.getElem?_eq_some_iff.mp found).1

theorem keeps_closeScope_nested : Keeps Collector.Nested closeScope := by
  intro c nested
  cases found : c.table.scope? c.scope with
  | none =>
    have unchanged : (closeScope c).2 = c := by rw [closeScope, snd_modify, found]
    rwa [unchanged]
  | some scope =>
    rw [closeScope_of_scope? found]
    refine ⟨nested.ordered, fun t inside => ?_⟩
    cases is_scope : c.scope with
    | none => simp [is_scope, ScopeTable.scope?] at found
    | some s =>
      rw [is_scope] at found
      have := nested.ordered.outward ⟨scope, found, inside⟩
      have := nested.current s is_scope
      show t < c.table.scopes.size
      omega

theorem nested_inScope (kind : ScopeKind) (span : Span) (function : NodeRef)
    {body : CollectM Unit} (inside : Keeps Collector.Nested body) :
    Keeps Collector.Nested (inScope kind span function body) :=
  Keeps.bind (fun _ nested => nested_openScope nested kind span function) fun _ =>
    inside.bind fun _ => keeps_closeScope_nested

theorem lasting_nested : Lasting tree fun _ : Unit => Collector.Nested where
  declare nested _ := by
    refine ⟨nested.ordered.declare _, fun s is_scope => ?_⟩
    rw [Collect.declare, ScopeTable.size_scopes_declare]
    exact nested.current s is_scope
  note nested notes :=
    ⟨notes.table ▸ nested.ordered,
      fun s is_scope => notes.table ▸ nested.current s (notes.scope ▸ is_scope)⟩
  enclosed _ _ _ kind function _ inside _ := nested_inScope kind _ function (inside ())

/-- Scopes are collected in order, whatever the tree. -/
theorem ordered_run (tree : Tree) : (run tree).table.Ordered := by
  unfold run
  split
  · have started : start.Nested := ⟨.empty, nofun⟩
    have walked (v : Visit) : Keeps Collector.Nested (visitWithin tree (depthBound tree) v) :=
      lasting_nested.visitWithin
        (fun kind span function _ inside _ => nested_inScope kind span function (inside ())) _ v ()
    exact (nested_inScope _ _ _ (walked _) _ started).ordered
  · exact .empty

end Collect

/-! ## Walking -/

namespace ScopeTable.Ordered

variable {table : ScopeTable} (ordered : table.Ordered)
include ordered

theorem wellFounded_outward : WellFounded table.Outward :=
  Subrelation.wf (fun step => ordered.outward step) Nat.lt_wfRel.wf

theorem wellFounded_inward : WellFounded table.Inward := by
  refine Subrelation.wf (fun {next current} step => ?_)
    (measure fun s => table.scopes.size - s).wf
  have := ordered.inward step
  show table.scopes.size - next < table.scopes.size - current
  omega

/-- Going inward ends before the steps do, if there are as many as scopes with greater numbers. -/
theorem descend_eq (pos : Nat) {steps more current : Nat}
    (enough : table.scopes.size ≤ steps + current) (enough' : table.scopes.size ≤ more + current) :
    table.descend pos steps current = table.descend pos more current := by
  induction steps generalizing more current with
  | zero =>
    have outside : table.scopes[current]? = none := Array.getElem?_eq_none (by omega)
    cases more <;> simp [descend, outside]
  | succ steps ih =>
    cases more with
    | zero =>
      have outside : table.scopes[current]? = none := Array.getElem?_eq_none (by omega)
      simp [descend, outside]
    | succ more =>
      rw [descend, descend]
      split
      · rfl
      · rename_i scope found
        dsimp only
        split
        · rename_i child chosen
          have := ordered.inward ⟨scope, found, Array.mem_of_find?_eq_some chosen⟩
          exact ih (by omega) (by omega)
        · rfl

end ScopeTable.Ordered

namespace Snapshot

variable {decls : FileDecls} (ordered : decls.table.Ordered)

theorem methodOwnerWithin_of_scope? {scope : Option Nat}
    (outside : decls.table.scope? scope = none) (steps : Nat) :
    methodOwnerWithin decls steps scope = none := by
  cases steps <;> simp [methodOwnerWithin, outside]

include ordered

/-- Going outward ends before the steps do, if there are more than scopes with smaller numbers. -/
theorem methodOwnerWithin_eq {steps more s : Nat} (enough : s < steps) (enough' : s < more) :
    methodOwnerWithin decls steps (some s) = methodOwnerWithin decls more (some s) := by
  induction steps generalizing more s with
  | zero => exact absurd enough (Nat.not_lt_zero s)
  | succ steps ih =>
    obtain ⟨more, rfl⟩ : ∃ fewer, more = fewer + 1 := ⟨more - 1, by omega⟩
    rw [methodOwnerWithin, methodOwnerWithin]
    split
    · rfl
    · rename_i scope found
      dsimp only
      split
      · rfl
      · cases around : scope.parent with
        | none => rw [methodOwnerWithin_of_scope? rfl, methodOwnerWithin_of_scope? rfl]
        | some outer =>
          have : outer < s := ordered.outward ⟨scope, found, around⟩
          exact ih (by omega) (by omega)

theorem methodOwner?_eq (scope : Option Nat) {more : Nat}
    (enough : decls.table.scopes.size ≤ more) :
    methodOwnerWithin decls more scope = methodOwner? decls scope := by
  rw [methodOwner?]
  cases found : decls.table.scope? scope with
  | none => rw [methodOwnerWithin_of_scope? found, methodOwnerWithin_of_scope? found]
  | some _ =>
    obtain ⟨s, rfl, found⟩ := Option.bind_eq_some_iff.mp found
    have : s < decls.table.scopes.size := (Array.getElem?_eq_some_iff.mp found).1
    exact methodOwnerWithin_eq ordered (by omega) this

end Snapshot

/-- The walks through the scopes of a file end by themselves: no scope leads on for ever, neither
inward nor outward, and with more steps than there are scopes nothing else is found. -/
structure FileDecls.WalksEnd (decls : FileDecls) : Prop where
  inward : WellFounded decls.table.Inward
  outward : WellFounded decls.table.Outward
  descend (pos : Nat) {more : Nat} (enough : decls.table.scopes.size ≤ more) :
    decls.table.descend pos more 0 = decls.table.descend pos decls.table.scopes.size 0
  methodOwner (scope : Option Nat) {more : Nat} (enough : decls.table.scopes.size ≤ more) :
    Snapshot.methodOwnerWithin decls more scope = Snapshot.methodOwner? decls scope

theorem FileDecls.walksEnd_ofTree (file : FileId) (tree : Tree) : (ofTree file tree).WalksEnd := by
  have ordered : (ofTree file tree).table.Ordered := Collect.ordered_run tree
  exact {
    inward := ordered.wellFounded_inward
    outward := ordered.wellFounded_outward
    descend pos more enough := ordered.descend_eq pos enough (Nat.le_refl _)
    methodOwner scope more enough := Snapshot.methodOwner?_eq ordered scope enough }

end LuaTyping
