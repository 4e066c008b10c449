import LuaTyping.Proofs.Decl.Lookup
import LuaTyping.Proofs.Decl.Tables

/-!
# Files of globals

A file that does nothing but assign globals, each under a comment with its type. The walk records
one declaration for each of them, in order, however many there are, and the tables of the file list
them under their names. Such files make up the smallest projects in which files share names, or in
which the type of one declaration needs that of another.
-/

set_option autoImplicit false

namespace LuaTyping

/-- A global and what its comment says. -/
abbrev DocumentedGlobal := String × TypeExpr

namespace GlobalsTree

/-- The node with this number in a file of globals: three nodes assign a global. -/
def node (globals : List DocumentedGlobal) (k : Nat) : Node :=
  let i := k / 3
  match k % 3 with
  | 0 => ⟨.name (globals.getD i default).1, ⟨6 * i, 6 * i + 1⟩, some (3 * i + 2)⟩
  | 1 => ⟨.nil, ⟨6 * i + 2, 6 * i + 3⟩, some (3 * i + 2)⟩
  | _ => ⟨.assign [some (3 * i)] [some (3 * i + 1)], ⟨6 * i, 6 * i + 5⟩,
      some (3 * globals.length)⟩

end GlobalsTree

/-- A file that is nothing but globals with comments. -/
def globalsTree (globals : List DocumentedGlobal) : Tree :=
  let count := globals.length
  let outer : List Node :=
    [⟨.block ((List.range count).map fun i => some (3 * i + 2)), ⟨0, 6 * count + 1⟩,
        some (3 * count + 1)⟩,
      ⟨.chunk (some (3 * count)), ⟨0, 6 * count + 3⟩, none⟩]
  { nodes := ((List.range (3 * count)).map (GlobalsTree.node globals) ++ outer).toArray
    docs := .ofList (globals.zipIdx.map fun global => (3 * global.2 + 2, ⟨[.typeTag global.1.2]⟩))
    root := some (3 * count + 1) }

namespace GlobalsTree

/-- What the walk records of the global with this number. -/
def entry (global : DocumentedGlobal) (i : Nat) : Entry :=
  { Entry.plain i .global global.1 (some 0) (some (3 * i)) ⟨6 * i, 6 * i + 1⟩ with
    declared := some (global.2.lower [])
    initializer := some ⟨some (3 * i + 1), 0, .literal⟩
    visibleFrom := 6 * i + 5 }

variable {globals : List DocumentedGlobal}

theorem node?_eq {k : Nat} (there : k < 3 * globals.length) :
    (globalsTree globals).node? (some k) = some (node globals k) := by
  simp [globalsTree, Tree.node?, List.getElem?_append_left, there]

section Statement

variable {global : DocumentedGlobal} {i : Nat} (found : globals[i]? = some global)
include found

theorem doc?_eq : (globalsTree globals).doc? (some (3 * i + 2)) = some ⟨[.typeTag global.2]⟩ := by
  have distinct : (globals.zipIdx.map Prod.snd).Pairwise (· < ·) := by
    rw [List.zipIdx_map_snd]
    exact List.pairwise_lt_range'
  refine Std.HashMap.getElem?_ofList_of_mem (k := 3 * i + 2) (by simp) ?_
    (List.mem_map.mpr ⟨(global, i), List.mk_mem_zipIdx_iff_getElem?.mpr found, rfl⟩)
  refine List.pairwise_map.mpr ((List.pairwise_map.mp distinct).imp fun less => ?_)
  simp only [beq_eq_false_iff_ne]
  omega

/-- The walk of the assignment of a global records it. -/
theorem run_statement {c : Collector} (scope : c.scope = some 0) (next : c.table.entries.size = i)
    (unbound : c.table.lookup global.1 (6 * i) (some 0) = none) (depth : Nat) :
    (Collect.visitWithin (globalsTree globals) (depth + 2) (.stmt (some (3 * i + 2)))).run c
      = ((), (Collect.declare (entry global i) c).2) := by
  obtain ⟨less, -⟩ := List.getElem?_eq_some_iff.mp found
  have target : (globalsTree globals).node? (some (3 * i))
      = some ⟨.name global.1, ⟨6 * i, 6 * i + 1⟩, some (3 * i + 2)⟩ := by
    rw [node?_eq (by omega)]
    simp [node, found]
  have value : (globalsTree globals).node? (some (3 * i + 1))
      = some ⟨.nil, ⟨6 * i + 2, 6 * i + 3⟩, some (3 * i + 2)⟩ := by
    have quotient : (3 * i + 1) / 3 = i := by omega
    have rest : (3 * i + 1) % 3 = 1 := by omega
    rw [node?_eq (by omega)]
    simp [node, quotient, rest]
  have stmt : (globalsTree globals).node? (some (3 * i + 2))
      = some ⟨.assign [some (3 * i)] [some (3 * i + 1)], ⟨6 * i, 6 * i + 5⟩,
          some (3 * globals.length)⟩ := by
    have quotient : (3 * i + 2) / 3 = i := by omega
    have rest : (3 * i + 2) % 3 = 2 := by omega
    rw [node?_eq (by omega)]
    simp [node, quotient, rest]
  have here : (globalsTree globals).span (some (3 * i)) = ⟨6 * i, 6 * i + 1⟩ := by
    rw [Tree.span, target]
    rfl
  have around : (globalsTree globals).span (some (3 * i + 2)) = ⟨6 * i, 6 * i + 5⟩ := by
    rw [Tree.span, stmt]
    rfl
  rw [Collect.run_visitWithin_documented (congrArg (Option.map Node.form) target)
    (congrArg (Option.map Node.form) value) (by rw [here, scope]; exact unbound)
    (congrArg (Option.map Node.form) stmt) (doc?_eq found) depth, scope, next, here, around]
  rfl

end Statement

/-- So far the walk has declared nothing but globals, outside all functions. -/
structure Outside (globals : List DocumentedGlobal) (i : Nat) (c : Collector) : Prop where
  sound : c.Sound
  scope : c.scope = some 0
  entries : c.table.entries = ((globals.take i).zipIdx.map fun p => entry p.1 p.2).toArray
  unbound : ∀ name pos, c.table.lookup name pos (some 0) = none

theorem Outside.statement {i : Nat} {c : Collector} (h : Outside globals i c)
    (there : i < globals.length) (depth : Nat) :
    Outside globals (i + 1) ((Collect.visitWithin (globalsTree globals) (depth + 2)
      (.stmt (some (3 * i + 2)))).run c).2 := by
  have found : globals[i]? = some globals[i] := List.getElem?_eq_getElem there
  have next : c.table.entries.size = i := by
    rw [h.entries]
    simp
    omega
  rw [run_statement found h.scope next (h.unbound _ _) depth]
  have fresh : (entry globals[i] i).Fresh c := ⟨next.symm, h.scope.symm⟩
  refine ⟨Collect.sound_declare h.sound fresh, h.scope, ?_, fun name pos => ?_⟩
  · have last : (globals.take (i + 1)).zipIdx = (globals.take i).zipIdx ++ [(globals[i], i)] := by
      rw [List.take_succ_eq_append_getElem there, List.zipIdx_append]
      simp [Nat.min_eq_left there.le]
    show c.table.entries.push _ = _
    rw [h.entries, last]
    simp
  · refine (h.sound.table.lookup_declare_of_hidden fresh.id ?_).trans (h.unbound name pos)
    simp [Entry.binds, entry, Entry.plain, DeclKind.isLexical]

theorem Outside.statements {c : Collector} (h : Outside globals 0 c) (depth : Nat) {n : Nat}
    (le : n ≤ globals.length) :
    Outside globals n ((((List.range n).map fun i => some (3 * i + 2)).forM fun stmt =>
      Collect.visitWithin (globalsTree globals) (depth + 2) (.stmt stmt)).run c).2 := by
  induction n with
  | zero => exact h
  | succ n ih =>
    rw [List.range_succ, List.map_append, List.forM_eq_forM, List.forM_append, StateT.run_bind]
    simp only [List.map_cons, List.map_nil, List.forM_cons, List.forM_nil]
    exact (ih (Nat.le_of_succ_le le)).statement le depth

/-- The walk of a file of globals records them and nothing else. -/
theorem entries_eq (globals : List DocumentedGlobal) :
    (Collect.run (globalsTree globals)).table.entries
      = (globals.zipIdx.map fun p => entry p.1 p.2).toArray := by
  have root : (globalsTree globals).form? (globalsTree globals).root
      = some (.chunk (some (3 * globals.length))) := by
    simp [globalsTree, Tree.form?, Tree.node?]
  have body : (globalsTree globals).form? (some (3 * globals.length))
      = some (.block ((List.range globals.length).map fun i => some (3 * i + 2))) := by
    simp [globalsTree, Tree.form?, Tree.node?]
  have depth : Collect.depthBound (globalsTree globals)
      = 3 * ((globalsTree globals).size + 1) + 2 + 1 := rfl
  have start : Outside globals 0
      (Collect.openScope .file ((globalsTree globals).span (globalsTree globals).root) none
        Collect.start).2 :=
    ⟨Collect.sound_file _, rfl, rfl, fun _ _ => rfl⟩
  rw [Collect.run, root]
  simp only [depth, Collect.visitWithin_stmts body]
  refine (congrArg ScopeTable.entries (Collect.table_closeScope _)).trans ?_
  have done := (start.statements (3 * ((globalsTree globals).size + 1)) (le_refl _)).entries
  rw [List.take_length] at done
  exact done

/-! ### The tables of such a file -/

/-- The file, as an index keeps it. -/
def indexed (file : FileId) (generation : Nat) (globals : List DocumentedGlobal) : IndexedFile :=
  ⟨file, generation, globalsTree globals, .ofTree file (globalsTree globals)⟩

theorem entry?_ofTree (file : FileId) {global : DocumentedGlobal} {i : Nat}
    (found : globals[i]? = some global) :
    FileDecls.entry? (.ofTree file (globalsTree globals)) i = some (entry global i) := by
  show (Collect.run (globalsTree globals)).table.entries[i]? = _
  rw [entries_eq]
  simp [found]

theorem zipIdx_entries (globals : List DocumentedGlobal) :
    (globals.zipIdx.map fun p => entry p.1 p.2).zipIdx
      = globals.zipIdx.map fun p => (entry p.1 p.2, p.2) := by
  refine List.ext_getElem? fun i => ?_
  cases found : globals[i]? <;> simp [List.getElem?_zipIdx, found]

/-- A table by name lists the globals with the name. -/
theorem listed_eq (file : FileId) (generation : Nat) (kind : DeclKind) (name : String) :
    (indexed file generation globals).listed (Entry.nameIf kind) name
      = if kind = .global then
          (globals.zipIdx.filter fun p => p.1.1 == name).map fun p => ⟨file, p.2⟩
        else [] := by
  have entries : (indexed file generation globals).decls.table.entries = _ := entries_eq globals
  rw [IndexedFile.listed_eq, entries, zipIdx_entries, List.filter_map, List.map_map]
  split
  · rename_i is_global
    subst is_global
    rfl
  · rename_i other
    have unnamed (p : DocumentedGlobal × Nat) : (entry p.1 p.2).nameIf kind = none :=
      if_neg (by simpa [entry, Entry.plain] using Ne.symm other)
    simp [Function.comp_def, unnamed]

/-- The node of a name that is assigned to declares its global. -/
theorem declForNode?_eq (file : FileId) {i : Nat} (there : i < globals.length) :
    (FileDecls.ofTree file (globalsTree globals)).declForNode? (some (3 * i)) = some i := by
  have keyed : FileDecls.keyed Entry.node (Collect.run (globalsTree globals)).table.entries
      = (List.range' 0 globals.length).map fun i => (3 * i, i) := by
    rw [FileDecls.keyed, entries_eq, zipIdx_entries, List.filterMap_map,
      ← List.zipIdx_map_snd 0 globals, List.map_map]
    exact congrFun List.filterMap_eq_map _
  have same : (List.range' 0 globals.length).find? (fun j => 3 * j == 3 * i) = some i := by
    rw [List.find?_range'_eq_some]
    refine ⟨beq_self_eq_true _, by simpa using there, fun j _ less => ?_⟩
    have apart : 3 * j ≠ 3 * i := by omega
    simpa using apart
  rw [FileDecls.declForNode?_ofTree, FileDecls.numbers, keyed, List.filter_map, List.map_map,
    ← same, ← List.head?_filter]
  exact congrArg List.head? (List.map_id _)

end GlobalsTree

end LuaTyping
