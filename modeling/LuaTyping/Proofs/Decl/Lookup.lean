import LuaTyping.Proofs.Decl.Representation
import Mathlib.Data.List.Find

/-!
# Lookups while a table grows

A name is looked up both while the declarations of a file are collected and when all are there. A
scope has a greater number than those around it, so what a lookup finds is decided by the scopes
with smaller numbers (`lookup_congr`). Which scope is the innermost one at a position changes only
when a scope that holds the position is opened in the one that was the innermost.
-/

set_option autoImplicit false

namespace LuaTyping.ScopeTable

variable {table : ScopeTable} {name : String} {pos : Nat}

/-! ## Looking up -/

/-- What a lookup learns from a scope: the scope around it and the binding that it sees there. -/
def view (table : ScopeTable) (name : String) (pos s : Nat) : Option (Option Nat × Option Nat) :=
  (table.scopes[s]?).map fun scope =>
    (scope.parent, table.latest? (table.visibleIn scope name pos))

theorem lookupWithin_succ (steps s : Nat) :
    table.lookupWithin name pos (steps + 1) (some s)
      = (table.view name pos s).bind fun seen =>
          seen.2.or (table.lookupWithin name pos steps seen.1) := by
  rw [lookupWithin, view, scope?]
  cases found : table.scopes[s]? with
  | none => simp [found]
  | some scope =>
    simp only [Option.bind_some, found, Option.map_some]
    cases table.latest? (table.visibleIn scope name pos) <;> rfl

theorem lookupWithin_none (steps : Nat) : table.lookupWithin name pos steps none = none := by
  cases steps <;> rfl

/-- Scopes with smaller numbers decide. -/
theorem Ordered.lookup_congr (ordered : table.Ordered) {new : ScopeTable} {bound s : Nat}
    (same : ∀ s < bound, new.view name pos s = table.view name pos s) (less : s < bound) :
    new.lookup name pos (some s) = table.lookup name pos (some s) := by
  suffices within : ∀ steps s, s < bound →
      new.lookupWithin name pos steps (some s) = table.lookupWithin name pos steps (some s) from
    within _ s less
  intro steps
  induction steps with
  | zero => exact fun _ _ => rfl
  | succ steps ih =>
    intro s less
    rw [lookupWithin_succ, lookupWithin_succ, same s less]
    refine Option.bind_congr fun seen view => ?_
    obtain ⟨scope, found, rfl⟩ := Option.map_eq_some_iff.mp view
    cases around : scope.parent with
    | none => simp only [lookupWithin_none]
    | some outer =>
      have outside : outer < s := ordered.outward ⟨scope, found, around⟩
      simp only [ih outer (by omega)]

theorem later_congr {new : ScopeTable} {a b : Nat} (same_a : new.entry? a = table.entry? a)
    (same_b : new.entry? b = table.entry? b) : new.later a b = table.later a b := by
  have from_a : new.visibleFrom a = table.visibleFrom a := by rw [visibleFrom, visibleFrom, same_a]
  have from_b : new.visibleFrom b = table.visibleFrom b := by rw [visibleFrom, visibleFrom, same_b]
  simp only [later, from_a, from_b]

theorem latest?_congr {new : ScopeTable} {decls : List Nat}
    (same : ∀ d ∈ decls, new.entry? d = table.entry? d) :
    new.latest? decls = table.latest? decls := by
  cases decls with
  | nil => rfl
  | cons first rest =>
    rw [latest?, latest?]
    congr 1
    induction rest generalizing first with
    | nil => rfl
    | cons second rest ih =>
      have later := later_congr (same first (by simp)) (same second (by simp))
      rw [List.foldl_cons, List.foldl_cons, later]
      refine ih _ fun d mem => same d ?_
      rcases table.later_mem first second with is_later | is_later <;> grind

/-- A declaration is seen only from the scope in which it stands, and only if it binds the name and
is visible. -/
theorem Consistent.view_declare (h : table.Consistent) {entry : Entry} {s : Nat}
    (next : entry.id = table.entries.size)
    (other : entry.scope ≠ some s ∨ ¬ (entry.binds name ∧ entry.isVisibleAt pos)) :
    (table.declare entry).view name pos s = table.view name pos s := by
  rw [view, view, scopes_declare, Option.map_map]
  refine Option.map_congr fun scope found => ?_
  have known (d : Nat) (mem : d ∈ scope.decls.toList) :
      ScopeTable.entry? (table.declare entry) d = table.entry? d := by
    obtain ⟨_, there, -⟩ := (h.listed d s).mp ⟨scope, found, Array.mem_toList_iff.mp mem⟩
    have old : d < table.entries.size := lt_size_of_found there
    rw [entry?_declare, if_neg (Nat.ne_of_lt old)]
  have same : (table.declare entry).visibleIn scope name pos
      = table.visibleIn scope name pos := by
    refine List.filter_congr fun d mem => ?_
    rw [known d mem]
  have latest : (table.declare entry).latest? (table.visibleIn scope name pos)
      = table.latest? (table.visibleIn scope name pos) :=
    latest?_congr fun d mem => known d (List.mem_filter.mp mem).1
  simp only [Function.comp_apply]
  split
  · -- the new number is the last one of its scope and is left out
    rename_i here
    have hidden := other.resolve_left (not_not_intro here)
    have dropped : (table.declare entry).visibleIn
        { scope with decls := scope.decls.push entry.id } name pos
        = (table.declare entry).visibleIn scope name pos := by
      simp only [visibleIn, Array.toList_push, List.filter_append, entry?_declare, next]
      simp [hidden]
    rw [dropped, same, latest]
  · rw [same, latest]

theorem view_openScope (parent : Option Nat) (kind : ScopeKind) (span : Span) (function : NodeRef)
    {s : Nat} (there : s < table.scopes.size) :
    (table.openScope parent kind span function).2.view name pos s = table.view name pos s := by
  rw [view, view, scopes_openScope, if_neg (Nat.ne_of_lt there), Option.map_map]
  refine Option.map_congr fun scope _ => ?_
  simp only [Function.comp_apply]
  split <;> rfl

theorem Consistent.lookup_openScope (h : table.Consistent) (parent : Option Nat) (kind : ScopeKind)
    (span : Span) (function : NodeRef) {s : Nat} (there : s < table.scopes.size) :
    (table.openScope parent kind span function).2.lookup name pos (some s)
      = table.lookup name pos (some s) :=
  h.ordered.lookup_congr (fun _ there => view_openScope parent kind span function there) there

/-- What is declared in a scope is not seen from scopes with smaller numbers. -/
theorem Consistent.lookup_declare_of_lt (h : table.Consistent) {entry : Entry} {home s : Nat}
    (next : entry.id = table.entries.size) (here : entry.scope = some home) (less : s < home) :
    (table.declare entry).lookup name pos (some s) = table.lookup name pos (some s) := by
  refine h.ordered.lookup_congr (fun s less => h.view_declare next (.inl ?_)) less
  rw [here]
  exact fun same => Nat.ne_of_gt less (Option.some.inj same)

theorem Consistent.lookup_declare_of_hidden (h : table.Consistent) {entry : Entry} {s : Nat}
    (next : entry.id = table.entries.size)
    (hidden : ¬ (entry.binds name ∧ entry.isVisibleAt pos)) :
    (table.declare entry).lookup name pos (some s) = table.lookup name pos (some s) :=
  h.ordered.lookup_congr (fun _ _ => h.view_declare next (.inr hidden)) (Nat.lt_succ_self s)

/-! ## The innermost scope -/

/-- The innermost scope that holds `pos`, if the file does. -/
def innermost (table : ScopeTable) (pos : Nat) : Nat := table.descend pos table.scopes.size 0

theorem scopeAt_eq_innermost {root : Scope} (found : table.scopes[0]? = some root)
    (holds : root.span.contains pos) : table.scopeAt pos = some (table.innermost pos) := by
  rw [scopeAt, found]
  exact if_pos holds

/-- Whether the scope holds `pos`. -/
def holds (table : ScopeTable) (pos s : Nat) : Bool :=
  (table.scopes[s]?).any fun scope => scope.span.contains pos

/-- The scope to go on to from a scope. -/
def next? (table : ScopeTable) (pos current : Nat) : Option Nat :=
  (table.scopes[current]?).bind fun scope => scope.children.find? (table.holds pos)

theorem descend_succ (steps current : Nat) :
    table.descend pos (steps + 1) current
      = ((table.next? pos current).map (table.descend pos steps)).getD current := by
  rw [descend]
  cases found : table.scopes[current]? with
  | none => simp [next?, found]
  | some scope =>
    have next_eq {within : Nat → Bool} {chosen : Option Nat}
        (first : scope.children.find? within = chosen)
        (same : ∀ child, table.holds pos child = within child) :
        table.next? pos current = chosen := by
      rw [next?, found, Option.bind_some, funext same, first]
    dsimp only
    split
    · rename_i first
      rw [next_eq first fun child => ?_]
      · rfl
      · rw [ScopeTable.holds]
        cases table.scopes[child]? <;> rfl
    · rename_i first
      rw [next_eq first fun child => ?_]
      · rfl
      · rw [ScopeTable.holds]
        cases table.scopes[child]? <;> rfl

theorem next?_declare (entry : Entry) (current : Nat) :
    (table.declare entry).next? pos current = table.next? pos current := by
  have holds : (table.declare entry).holds pos = table.holds pos := by
    funext s
    rw [ScopeTable.holds, ScopeTable.holds, scopes_declare, Option.any_map]
    congr 1
    funext scope
    split <;> rfl
  rw [next?, next?, holds, scopes_declare, Option.bind_map]
  congr 1
  funext scope
  rw [Function.comp_apply]
  split <;> rfl

theorem innermost_declare (entry : Entry) :
    (table.declare entry).innermost pos = table.innermost pos := by
  rw [innermost, innermost, size_scopes_declare]
  generalize table.scopes.size = steps
  suffices descends : (table.declare entry).descend pos steps = table.descend pos steps by
    rw [descends]
  induction steps with
  | zero => rfl
  | succ steps ih =>
    funext current
    rw [descend_succ, descend_succ, next?_declare, ih]

section OpenScope

variable {outer : Nat} {span : Span} (kind : ScopeKind) (function : NodeRef)

theorem holds_openScope {s : Nat} (there : s < table.scopes.size) :
    (table.openScope (some outer) kind span function).2.holds pos s = table.holds pos s := by
  rw [ScopeTable.holds, ScopeTable.holds, scopes_openScope, if_neg (Nat.ne_of_lt there),
    Option.any_map]
  congr 1
  funext scope
  split <;> rfl

theorem holds_openScope_size :
    (table.openScope (some outer) kind span function).2.holds pos table.scopes.size
      = span.contains pos := by
  obtain ⟨scope, found, -, rfl⟩ := table.exists_openScope (some outer) kind span function
  rw [ScopeTable.holds, found]
  rfl

/-- A new scope is the last one to go on to in the scope around it. -/
theorem Ordered.next?_openScope (ordered : table.Ordered) {current : Nat}
    (there : current < table.scopes.size) :
    (table.openScope (some outer) kind span function).2.next? pos current
      = (table.next? pos current).or
          (if outer = current ∧ span.contains pos then some table.scopes.size else none) := by
  have found : table.scopes[current]? = some table.scopes[current] :=
    Array.getElem?_eq_getElem there
  have old : table.scopes[current].children.find?
        ((table.openScope (some outer) kind span function).2.holds pos)
      = table.scopes[current].children.find? (table.holds pos) := by
    rw [← Array.find?_toList, ← Array.find?_toList]
    refine List.find?_congr fun child mem => ?_
    have less := (ordered.inward ⟨_, found, Array.mem_toList_iff.mp mem⟩).2
    exact holds_openScope kind function less
  simp only [next?, scopes_openScope, if_neg (Nat.ne_of_lt there), found, Option.map_some,
    Option.bind_some, Option.some.injEq]
  by_cases here : outer = current
  · simp only [here, ↓reduceIte, Array.find?_push, true_and, holds_openScope_size] at old ⊢
    rw [old]
  · simp only [here, ↓reduceIte, false_and, Option.or_none, old]

theorem Ordered.lt_of_next? (ordered : table.Ordered) {current child : Nat}
    (chosen : table.next? pos current = some child) :
    current < child ∧ child < table.scopes.size := by
  obtain ⟨scope, found, chosen⟩ := Option.bind_eq_some_iff.mp chosen
  exact ordered.inward ⟨scope, found, Array.mem_of_find?_eq_some chosen⟩

variable {kind function}

/-- A scope that does not hold the position, or is opened elsewhere, is not gone into. -/
theorem Ordered.innermost_openScope_of_other (ordered : table.Ordered)
    (there : outer < table.scopes.size)
    (other : outer ≠ table.innermost pos ∨ ¬ span.contains pos) :
    (table.openScope (some outer) kind span function).2.innermost pos = table.innermost pos := by
  -- the steps are as many on both sides, and enough
  have descends (steps current : Nat) (less : current < table.scopes.size)
      (other : outer ≠ table.descend pos steps current ∨ ¬ span.contains pos) :
      (table.openScope (some outer) kind span function).2.descend pos steps current
        = table.descend pos steps current := by
    induction steps generalizing current with
    | zero => rfl
    | succ steps ih =>
      rw [descend_succ] at other
      rw [descend_succ, descend_succ, ordered.next?_openScope kind function less]
      cases chosen : table.next? pos current with
      | none =>
        rw [chosen] at other
        have not_new : ¬ (outer = current ∧ span.contains pos) := fun here =>
          other.elim (fun elsewhere => elsewhere here.1) fun outside => outside here.2
        simp [not_new]
      | some child =>
        rw [chosen] at other
        exact ih child (ordered.lt_of_next? chosen).2 other
  have enough : table.descend pos (table.scopes.size + 1) 0 = table.innermost pos :=
    ordered.descend_eq pos (by omega) (by omega)
  rw [innermost, size_scopes_openScope, descends _ 0 (by omega) (by rwa [enough]), enough]

/-- A scope that holds the position and is opened in the innermost one is the innermost one. -/
theorem Ordered.innermost_openScope (ordered : table.Ordered) (there : outer < table.scopes.size)
    (inside : table.innermost pos = outer) (holds : span.contains pos) :
    (table.openScope (some outer) kind span function).2.innermost pos = table.scopes.size := by
  have last (steps : Nat) :
      (table.openScope (some outer) kind span function).2.descend pos steps table.scopes.size
        = table.scopes.size := by
    cases steps with
    | zero => rfl
    | succ steps =>
      have other : outer ≠ table.scopes.size := Nat.ne_of_lt there
      simp [descend_succ, next?, scopes_openScope, other]
  have descends (steps current : Nat) (less : current < table.scopes.size)
      (enough : table.scopes.size ≤ steps + current)
      (inside : table.descend pos steps current = outer) :
      (table.openScope (some outer) kind span function).2.descend pos (steps + 1) current
        = table.scopes.size := by
    induction steps generalizing current with
    | zero => omega
    | succ steps ih =>
      rw [descend_succ] at inside
      rw [descend_succ, ordered.next?_openScope kind function less]
      cases chosen : table.next? pos current with
      | none =>
        rw [chosen] at inside
        have here : outer = current := inside.symm
        simp [here, holds, here ▸ last (steps + 1)]
      | some child =>
        rw [chosen] at inside
        obtain ⟨greater, less⟩ := ordered.lt_of_next? chosen
        exact ih child less (by omega) inside
  rw [innermost, size_scopes_openScope]
  exact descends _ 0 (by omega) (by omega) inside

end OpenScope

end LuaTyping.ScopeTable
