import LuaTyping.Proofs.Decl.Lookup
import LuaTyping.Proofs.Tree.SourceOrder

/-!
# Which binding of several a lookup takes

The innermost scope that has a visible binding of a name decides, and of several bindings there a
lookup takes the one that became visible last (`FirstSeeing.lookupWithin`). Among bindings before
the reference, the last one shadows those before it.

Hoisted bindings are visible all through their scope, also to a reference before them, and they
count with the offset at which they start. So a hoisted binding after the reference wins over one
that the reference follows. Bindings before the reference shadow those after it just where a scope
does not have both (`IsLatest.earlierFirst_iff`).
-/

set_option autoImplicit false

namespace LuaTyping

namespace ScopeTable

variable {table : ScopeTable} {name : String} {pos : Nat}

/-! ## The latest of several declarations -/

/-- The second declaration became visible further on, or at the same offset and is recorded no
earlier. -/
def Precedes (table : ScopeTable) (a b : Nat) : Prop :=
  table.visibleFrom a < table.visibleFrom b ∨ table.visibleFrom a = table.visibleFrom b ∧ a ≤ b

/-- Of some declarations, the one that became visible last. -/
def IsLatest (table : ScopeTable) (among : Nat → Prop) (d : Nat) : Prop :=
  among d ∧ ∀ other, among other → table.Precedes other d

theorem Precedes.refl (a : Nat) : table.Precedes a a := .inr ⟨rfl, Nat.le_refl a⟩

theorem Precedes.trans {a b c : Nat} (first : table.Precedes a b) (second : table.Precedes b c) :
    table.Precedes a c := by
  simp only [Precedes] at *
  omega

theorem Precedes.visibleFrom_le {a b : Nat} (h : table.Precedes a b) :
    table.visibleFrom a ≤ table.visibleFrom b := by
  simp only [Precedes] at h
  omega

theorem precedes_later (a b : Nat) :
    table.Precedes a (table.later a b) ∧ table.Precedes b (table.later a b) := by
  simp only [later, Bool.or_eq_true, Bool.and_eq_true, decide_eq_true_eq, beq_iff_eq]
  split
  · rename_i before
    exact ⟨before, .refl b⟩
  · rename_i not_before
    refine ⟨.refl a, ?_⟩
    simp only [Precedes]
    omega

theorem isLatest_of_latest? {decls : List Nat} {d : Nat} (latest : table.latest? decls = some d) :
    table.IsLatest (· ∈ decls) d := by
  refine ⟨mem_of_latest? latest, ?_⟩
  have among (first : Nat) (rest : List Nat) :
      ∀ other ∈ first :: rest, table.Precedes other (rest.foldl table.later first) := by
    induction rest generalizing first with
    | nil => simp [Precedes.refl]
    | cons second rest ih =>
      intro other mem
      have one := ih (table.later first second)
      have step := one _ List.mem_cons_self
      rcases List.mem_cons.mp mem with rfl | mem
      · exact (precedes_later other second).1.trans step
      · rcases List.mem_cons.mp mem with rfl | mem
        · exact (precedes_later first other).2.trans step
        · exact one other (List.mem_cons_of_mem _ mem)
  cases decls with
  | nil => cases latest
  | cons first rest =>
    cases latest
    exact among first rest

theorem latest?_eq_none_iff {decls : List Nat} : table.latest? decls = none ↔ decls = [] := by
  cases decls <;> simp [latest?]

/-! ## The scope that decides -/

/-- The declaration stands in the scope, binds the name and is visible at the position. -/
def Sees (table : ScopeTable) (name : String) (pos s d : Nat) : Prop :=
  ∃ entry, table.entry? d = some entry ∧ entry.scope = some s ∧ entry.binds name = true ∧
    entry.isVisibleAt pos = true

/-- Such a declaration that became visible no later than at the position. -/
def SeesBefore (table : ScopeTable) (name : String) (pos s d : Nat) : Prop :=
  table.Sees name pos s d ∧ table.visibleFrom d ≤ pos

/-- The scope `s` lies so many steps further out than `start`, and it is the innermost one from
there that has a visible binding. -/
inductive FirstSeeing (table : ScopeTable) (name : String) (pos : Nat) : Nat → Nat → Nat → Prop
  | here {s d : Nat} (sees : table.Sees name pos s d) : FirstSeeing table name pos 0 s s
  | outward {steps start outer s : Nat} (blind : ∀ d, ¬ table.Sees name pos start d)
      (around : table.Outward outer start) (first : FirstSeeing table name pos steps outer s) :
      FirstSeeing table name pos (steps + 1) start s

theorem Consistent.mem_visibleIn_iff (h : table.Consistent) {s : Nat} {scope : Scope}
    (found : table.scopes[s]? = some scope) {d : Nat} :
    d ∈ table.visibleIn scope name pos ↔ table.Sees name pos s d := by
  have listed : d ∈ scope.decls ↔ ∃ entry, table.entry? d = some entry ∧ entry.scope = some s := by
    rw [← h.listed d s]
    exact ⟨fun mem => ⟨scope, found, mem⟩, fun ⟨other, there, mem⟩ => by
      cases found.symm.trans there
      exact mem⟩
  rw [visibleIn, List.mem_filter, Array.mem_toList_iff, listed, Sees]
  cases table.entry? d <;> simp

theorem Consistent.exists_scope (h : table.Consistent) {s d : Nat}
    (sees : table.Sees name pos s d) : ∃ scope, table.scopes[s]? = some scope := by
  obtain ⟨entry, there, home, -⟩ := sees
  obtain ⟨scope, found, -⟩ := (h.listed d s).mpr ⟨entry, there, home⟩
  exact ⟨scope, found⟩

/-- A lookup takes the latest binding that a scope has, if it has any. -/
theorem Consistent.latest?_visibleIn (h : table.Consistent) {s : Nat} {scope : Scope}
    (found : table.scopes[s]? = some scope) :
    (∃ d, table.latest? (table.visibleIn scope name pos) = some d ∧
      table.IsLatest (table.Sees name pos s) d) ∨
    table.latest? (table.visibleIn scope name pos) = none ∧ ∀ d, ¬ table.Sees name pos s d := by
  have seen {d : Nat} : d ∈ table.visibleIn scope name pos ↔ table.Sees name pos s d :=
    h.mem_visibleIn_iff found
  cases latest : table.latest? (table.visibleIn scope name pos) with
  | none =>
    refine .inr ⟨rfl, fun d sees => ?_⟩
    rw [← seen, latest?_eq_none_iff.mp latest] at sees
    cases sees
  | some d =>
    obtain ⟨mem, last⟩ := isLatest_of_latest? latest
    exact .inl ⟨d, rfl, seen.mp mem, fun other sees => last other (seen.mpr sees)⟩

/-- A lookup that takes enough steps finds the latest binding of the scope that decides, and one
that takes fewer finds nothing. -/
theorem FirstSeeing.lookupWithin (h : table.Consistent) {steps start s : Nat}
    (first : table.FirstSeeing name pos steps start s) (limit : Nat) :
    (steps < limit → ∃ d, table.lookupWithin name pos limit (some start) = some d ∧
      table.IsLatest (table.Sees name pos s) d) ∧
    (limit ≤ steps → table.lookupWithin name pos limit (some start) = none) := by
  induction first generalizing limit with
  | @here s d sees =>
    cases limit with
    | zero => exact ⟨fun enough => absurd enough (Nat.not_lt_zero _), fun _ => rfl⟩
    | succ limit =>
      refine ⟨fun _ => ?_, fun few => absurd few (Nat.not_succ_le_zero _)⟩
      obtain ⟨scope, found⟩ := h.exists_scope sees
      rcases h.latest?_visibleIn found with ⟨last, taken, latest⟩ | ⟨-, blind⟩
      · refine ⟨last, ?_, latest⟩
        rw [lookupWithin_succ, view, found, Option.map_some, Option.bind_some, taken]
        rfl
      · exact absurd sees (blind d)
  | @outward steps start outer s blind around first ih =>
    cases limit with
    | zero => exact ⟨fun enough => absurd enough (Nat.not_lt_zero _), fun _ => rfl⟩
    | succ limit =>
      obtain ⟨scope, found, parent⟩ := around
      have onward : table.lookupWithin name pos (limit + 1) (some start)
          = table.lookupWithin name pos limit (some outer) := by
        rcases h.latest?_visibleIn found with ⟨d, -, sees, -⟩ | ⟨passed, -⟩
        · exact absurd sees (blind d)
        · rw [lookupWithin_succ, view, found, Option.map_some, Option.bind_some, passed, parent]
          rfl
      rw [onward]
      exact ⟨fun enough => (ih limit).1 (by omega), fun few => (ih limit).2 (by omega)⟩

/-! ## Before and after the reference -/

/-- Of the scope `s`, a binding that starts after the reference is found only if there is none
before it, and of those before it the latest is found. -/
structure EarlierFirst (table : ScopeTable) (name : String) (pos s : Nat) (found : Option Nat) :
    Prop where
  before : (∃ d, table.SeesBefore name pos s d) →
    ∃ d, found = some d ∧ table.IsLatest (table.SeesBefore name pos s) d
  after : ∀ d entry, found = some d → table.entry? d = some entry → entry.hoisted = true →
    pos < entry.visibleFrom → ∀ other, ¬ table.SeesBefore name pos s other

/-- Where the latest binding of a scope is taken, those before the reference come first just if none
comes after it too. -/
theorem IsLatest.earlierFirst_iff {s d : Nat} (latest : table.IsLatest (table.Sees name pos s) d) :
    table.EarlierFirst name pos s (some d) ↔
      ∀ before after, table.SeesBefore name pos s before → table.Sees name pos s after →
        table.visibleFrom after ≤ pos := by
  obtain ⟨sees, last⟩ := latest
  constructor
  · intro first before after sees_before sees_after
    obtain ⟨found, same, ⟨-, no_later⟩, -⟩ := first.before ⟨before, sees_before⟩
    cases same
    exact (last after sees_after).visibleFrom_le.trans no_later
  · intro apart
    refine ⟨fun ⟨before, sees_before⟩ => ?_, fun found entry same there _ later other before => ?_⟩
    · have no_later := apart before d sees_before sees
      exact ⟨d, rfl, ⟨sees, no_later⟩, fun other seen => last other seen.1⟩
    · cases same
      have no_later := apart other d before sees
      rw [visibleFrom, there] at no_later
      exact Nat.not_le.mpr later no_later

end ScopeTable

namespace FileDecls

/-- In the declarations of any tree, a lookup from a scope that is at most `Limits.treeWalk` steps
inside the innermost one with a visible binding takes the latest binding of that one, and from
further inside it finds nothing. So bindings before the reference shadow those after it just where
that scope does not have both. -/
theorem lookup_earlierFirst_iff (file : FileId) (tree : Tree) {name : String}
    {pos steps start s : Nat}
    (first : (ofTree file tree).table.FirstSeeing name pos steps start s) :
    let table := (ofTree file tree).table
    let found := table.lookup name pos (some start)
    (Limits.treeWalk < steps → found = none) ∧
      (steps ≤ Limits.treeWalk →
        (∃ d, found = some d ∧ table.IsLatest (table.Sees name pos s) d) ∧
        (table.EarlierFirst name pos s found ↔
          ∀ before after, table.SeesBefore name pos s before → table.Sees name pos s after →
            table.visibleFrom after ≤ pos)) := by
  intro table found
  have scopes : table.Consistent := (Collect.consistent_run tree).1
  obtain ⟨enough, few⟩ := first.lookupWithin scopes (Limits.treeWalk + 1)
  refine ⟨few, fun near => ?_⟩
  obtain ⟨d, taken, latest⟩ := enough (Nat.lt_succ_of_le near)
  have taken : found = some d := taken
  rw [taken]
  exact ⟨⟨d, rfl, latest⟩, latest.earlierFirst_iff⟩

namespace BetweenTwo

/-- The calls for `local x; x(); local function x() end`. -/
def calls : List Construct :=
  [.locals ["x"] [], .plain (.name "x"), .plain (.call (some 2) none []),
    .plain (.exprStat (some 3)), .closure [] false [], .localFunction "x" (some 6)]

/-- The name that is called is the node 2. -/
def tree : Tree :=
  (BuildM.finish [some 1, some 4, some 8]
    (calls.foldl (fun builder call => (call.make builder).2) .empty)).2.tree

def recorded : ScopeTable := (ofTree ⟨1⟩ tree).table

/-- The variable is visible from the offset 3 and the function from 15, and the function is found
both before and after its statement. -/
theorem collect_tree :
    recorded.entries.map (fun entry => (entry.scope, entry.binds "x"))
        = #[(some 0, true), (some 0, true)] ∧
      recorded.visibleFrom 0 = 3 ∧ recorded.visibleFrom 1 = 15 ∧
      ∀ pos ∈ [4, 16],
        recorded.scopeAt pos = some 0 ∧ recorded.lookup "x" pos (some 0) = some 1 := by
  have root : tree.form? tree.root = some (.chunk (some 9)) := rfl
  have depth : Collect.depthBound tree = 39 := rfl
  -- comments are kept in a map that does not evaluate, but here there are none
  have doc (node : Nat) : tree.doc? (some node) = none := Std.HashMap.getElem?_empty
  have block := @Collect.visitWithin_stmts tree 9 [some 1, some 4, some 8] rfl
  have variable_ := @Collect.visitWithin_stmt tree 1 (.localVars [some 0] []) rfl (doc _)
  have call := @Collect.visitWithin_stmt tree 4 (.exprStat (some 3)) rfl (doc _)
  have function := @Collect.visitWithin_stmt tree 8 (.localFunction (some 7) (some 6)) rfl (doc _)
  simp only [recorded, ofTree, ofCollector, Collect.run, root, depth, block, variable_, call,
    function, List.forM_eq_forM, List.forM_cons, List.forM_nil]
  decide +kernel

theorem visibleFrom_zero : recorded.visibleFrom 0 = 3 := collect_tree.2.1

theorem visibleFrom_one : recorded.visibleFrom 1 = 15 := collect_tree.2.2.1

theorem entry?_map_eq (d : Nat) :
    (recorded.entry? d).map (fun entry => (entry.scope, entry.binds "x"))
      = #[(some 0, true), (some 0, true)][d]? := by
  rw [← collect_tree.1, Array.getElem?_map]
  rfl

theorem sees_variable {pos : Nat} (after : 3 ≤ pos) : recorded.Sees "x" pos 0 0 := by
  have listed : _ = some (some 0, true) := entry?_map_eq 0
  obtain ⟨entry, found, same⟩ := Option.map_eq_some_iff.mp listed
  have start : entry.visibleFrom = 3 := by
    rw [← visibleFrom_zero, ScopeTable.visibleFrom, found]
    rfl
  exact ⟨entry, found, congrArg Prod.fst same, congrArg Prod.snd same,
    by simp [Entry.isVisibleAt, start, after]⟩

/-- Only the two are seen, at any position. -/
theorem visibleFrom_le_of_sees {pos d : Nat} (sees : recorded.Sees "x" pos 0 d) :
    recorded.visibleFrom d ≤ 15 := by
  obtain ⟨entry, found, -⟩ := sees
  have listed := entry?_map_eq d
  rw [found] at listed
  have less : d < 2 := (Array.getElem?_eq_some_iff.mp listed.symm).1
  rcases Nat.le_one_iff_eq_zero_or_eq_one.mp (Nat.le_of_lt_succ less) with rfl | rfl
  · exact visibleFrom_zero.le.trans (by decide)
  · exact visibleFrom_one.le

end BetweenTwo

open BetweenTwo in
/-- After both declarations, the last one before the reference is found. -/
theorem lookup_earlierFirst_iff_afterBoth :
    recorded.FirstSeeing "x" 16 0 0 0 ∧ recorded.lookup "x" 16 (some 0) = some 1 ∧
      recorded.EarlierFirst "x" 16 0 (recorded.lookup "x" 16 (some 0)) := by
  have first : recorded.FirstSeeing "x" 16 0 0 0 := .here (sees_variable (by decide))
  obtain ⟨-, near⟩ := lookup_earlierFirst_iff ⟨1⟩ tree first
  refine ⟨first, (collect_tree.2.2.2 16 (by simp)).2, (near (Nat.zero_le _)).2.mpr ?_⟩
  intro before after _ sees
  exact (visibleFrom_le_of_sees sees).trans (by decide)

open BetweenTwo in
/-- The scope of the whole file has a binding before the name that is called, and still the function
after it is found. -/
theorem not_earlierFirst :
    tree.form? (some 2) = some (.name "x") ∧ (tree.span (some 2)).start = 4 ∧
      recorded.scopeAt 4 = some 0 ∧ recorded.FirstSeeing "x" 4 0 0 0 ∧
      recorded.SeesBefore "x" 4 0 0 ∧ recorded.lookup "x" 4 (some 0) = some 1 ∧
      recorded.visibleFrom 1 = 15 ∧
      ¬ recorded.EarlierFirst "x" 4 0 (recorded.lookup "x" 4 (some 0)) := by
  have sees : recorded.Sees "x" 4 0 0 := sees_variable (by decide)
  have found : recorded.lookup "x" 4 (some 0) = some 1 := (collect_tree.2.2.2 4 (by simp)).2
  have before : recorded.SeesBefore "x" 4 0 0 := ⟨sees, visibleFrom_zero.le.trans (by decide)⟩
  refine ⟨rfl, rfl, ?_, .here sees, before, found, visibleFrom_one, fun first => ?_⟩
  · exact (collect_tree.2.2.2 4 (by simp)).1
  · obtain ⟨d, same, ⟨-, no_later⟩, -⟩ := first.before ⟨0, before⟩
    cases found.symm.trans same
    rw [visibleFrom_one] at no_later
    exact absurd no_later (by decide)

end FileDecls

end LuaTyping
