import LuaTyping.Decl.Snapshot

/-!
# Snapshots as lists of files

The tables of a snapshot are made for speed. Here each of them is said again as what it holds: a
look-up by name goes through the files in order and collects the declarations to which the table
gives that name. And what is asked of one file, such as the form of a node, is asked of the tree or
of the declarations of the file that is found.
-/

set_option autoImplicit false

namespace LuaTyping

namespace ListTable

variable {κ β : Type} [BEq κ] [Hashable κ] [EquivBEq κ] [LawfulHashable κ]

theorem list_add (table : ListTable κ β) (key other : κ) (value : β) :
    (table.add key value).list other
      = table.list other ++ if key == other then [value] else [] := by
  rw [list, list, add, Std.HashMap.getD_alter]
  split
  · rename_i same
    rw [Option.getD_some, ← Std.HashMap.getD_eq_getD_getElem?, Std.HashMap.getD_congr same,
      Array.toList_push]
  · rw [List.append_nil]

theorem contains_add (table : ListTable κ β) (key other : κ) (value : β) :
    (table.add key value).contains other = (key == other || table.contains other) := by
  rw [contains, contains, add, Std.HashMap.contains_alter]
  split <;> simp_all

/-- The list of a key holds the values paired with it. -/
theorem list_ofPairs (pairs : List (κ × β)) (key : κ) :
    (ofPairs pairs).list key = (pairs.filter fun pair => pair.1 == key).map Prod.snd := by
  have from_table (table : ListTable κ β) :
      (pairs.foldl (fun table pair => table.add pair.1 pair.2) table).list key
        = table.list key ++ (pairs.filter fun pair => pair.1 == key).map Prod.snd := by
    induction pairs generalizing table with
    | nil => simp
    | cons pair rest ih =>
      rw [List.foldl_cons, ih, list_add, List.filter_cons]
      split <;> simp
  have none_yet : (empty : ListTable κ β).list key = [] := by simp [list, empty]
  rw [ofPairs, from_table, none_yet, List.nil_append]

/-- A key is in the table if its list is not empty. -/
theorem contains_ofPairs (pairs : List (κ × β)) (key : κ) :
    (ofPairs pairs).contains key = !((ofPairs pairs).list key).isEmpty := by
  have from_table (table : ListTable κ β) :
      (pairs.foldl (fun table pair => table.add pair.1 pair.2) table).contains key
        = (table.contains key || pairs.any fun pair => pair.1 == key) := by
    induction pairs generalizing table with
    | nil => simp
    | cons pair rest ih =>
      rw [List.foldl_cons, ih, contains_add, List.any_cons, Bool.or_left_comm, Bool.or_assoc]
  have none_yet : (empty : ListTable κ β).contains key = false := by simp [contains, empty]
  rw [list_ofPairs, ofPairs, from_table, none_yet, Bool.false_or, List.isEmpty_map, Bool.eq_iff_iff]
  simp

end ListTable

namespace IndexedFile

/-- The declarations of the file to which `key?` gives the name. -/
def listed (key? : Entry → Option String) (name : String) (file : IndexedFile) : List DeclKey :=
  ((file.keyed key?).filter fun pair => pair.1 == name).map Prod.snd

theorem listed_eq (key? : Entry → Option String) (name : String) (file : IndexedFile) :
    file.listed key? name
      = (file.decls.table.entries.toList.zipIdx.filter fun pair => key? pair.1 == some name).map
          fun pair => ⟨file.file, pair.2⟩ := by
  rw [listed, keyed, FileDecls.keyed]
  induction file.decls.table.entries.toList.zipIdx with
  | nil => rfl
  | cons pair rest ih =>
    obtain ⟨entry, decl⟩ := pair
    cases found : key? entry with
    | none => simpa [found] using ih
    | some key => by_cases same : key = name <;> simpa [found, same] using ih

theorem list_ofPairs (key? : Entry → Option String) (files : List IndexedFile) (name : String) :
    (ListTable.ofPairs (files.flatMap fun file => file.keyed key?)).list name
      = files.flatMap (listed key? name) := by
  rw [ListTable.list_ofPairs, List.filter_flatMap, List.map_flatMap]
  rfl

end IndexedFile

namespace Snapshot

variable (files : List IndexedFile) (name : String)

theorem classDecls_ofFiles : (ofFiles files).classDecls name
    = files.flatMap (IndexedFile.listed (Entry.nameIf .classDecl) name) :=
  IndexedFile.list_ofPairs _ files name

theorem aliasDecls_ofFiles : (ofFiles files).aliasDecls name
    = files.flatMap (IndexedFile.listed (Entry.nameIf .aliasDecl) name) :=
  IndexedFile.list_ofPairs _ files name

theorem globalDecls_ofFiles : (ofFiles files).globalDecls name
    = files.flatMap (IndexedFile.listed (Entry.nameIf .global) name) :=
  IndexedFile.list_ofPairs _ files name

theorem attachedToClass_ofFiles : (ofFiles files).attachedToClass.list name
    = files.flatMap (IndexedFile.listed Entry.ownerClass? name) :=
  IndexedFile.list_ofPairs _ files name

theorem globalMembers_ofFiles : (ofFiles files).globalMembers name
    = files.flatMap (IndexedFile.listed Entry.ownerGlobal? name) :=
  IndexedFile.list_ofPairs _ files name

theorem isClass_ofFiles :
    (ofFiles files).isClass name = !((ofFiles files).classDecls name).isEmpty :=
  ListTable.contains_ofPairs _ name

variable {files}

/-- Files that differ in number are found by it. -/
theorem file?_ofFiles (distinct : files.Pairwise fun a b => a.file ≠ b.file) (file : FileId) :
    (ofFiles files).file? file = files.find? fun indexed => indexed.file == file := by
  cases found : files.find? fun indexed => indexed.file == file with
  | some indexed =>
    have mem := List.mem_of_find?_eq_some found
    have same : indexed.file = file := by simpa using List.find?_some found
    refine Std.HashMap.getElem?_ofList_of_mem (k := indexed.file) (by simp [same]) ?_ ?_
    · exact (List.pairwise_map.mpr (distinct.imp fun h => by simpa using h))
    · exact List.mem_map.mpr ⟨indexed, mem, rfl⟩
  | none =>
    refine Std.HashMap.getElem?_ofList_of_contains_eq_false ?_
    rw [List.find?_eq_none] at found
    simp only [List.map_map, List.contains_eq_mem, List.mem_map, Function.comp,
      decide_eq_false_iff_not]
    rintro ⟨indexed, mem, rfl⟩
    exact found indexed mem (by simp)

theorem file?_singleton (indexed : IndexedFile) :
    (ofFiles [indexed]).file? indexed.file = some indexed := by
  rw [file?_ofFiles (List.pairwise_singleton _ indexed)]
  exact List.find?_cons_of_pos (beq_self_eq_true indexed.file)

/-! ### A file that is found -/

section Found

variable {snapshot : Snapshot} {file : FileId} {indexed : IndexedFile}
  (found : snapshot.file? file = some indexed)
include found

theorem tree?_of_file? : snapshot.tree? file = some indexed.tree := by
  rw [tree?, found, Option.map_some]

theorem decls?_of_file? : snapshot.decls? file = some indexed.decls := by
  rw [decls?, found, Option.map_some]

theorem entry?_of_file? (decl : Nat) :
    snapshot.entry? ⟨file, decl⟩ = indexed.decls.entry? decl := by
  rw [Snapshot.entry?, decls?_of_file? found, Option.bind_some]

theorem form?_of_file? (node : NodeRef) :
    snapshot.form? file node = indexed.tree.form? node := by
  rw [form?, tree?_of_file? found, Option.bind_some]

theorem startOf_of_file? (node : NodeRef) :
    snapshot.startOf file node = (indexed.tree.span node).start := by
  rw [startOf, tree?_of_file? found, Option.map_some, Option.getD_some]

end Found

end Snapshot

end LuaTyping
