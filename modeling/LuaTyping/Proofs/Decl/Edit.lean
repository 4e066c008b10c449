import LuaTyping.Decl.Index
import LuaTyping.Proofs.Decl.Snapshot

/-!
# Projects that differ in one file

An edit changes one file of a project. The declarations under a name are then the same as before,
unless the old or the new version of the file contributes to that name; and whatever is declared in
the other files stays as it is.
-/

set_option autoImplicit false

namespace LuaTyping

theorem mem_sortNames {names : List String} {name : String} :
    name ∈ sortNames names ↔ name ∈ names := List.mem_mergeSort

theorem mem_dedupSorted {names : List String} {name : String} :
    name ∈ dedupSorted names ↔ name ∈ names := by
  fun_induction dedupSorted names with
  | case1 | case2 => rfl
  | case3 a b rest same ih =>
    rw [ih]
    simp [show a = b by simpa using same]
  | case4 a b rest _ ih => rw [List.mem_cons, List.mem_cons, ih]

namespace Entry

/-- Other files see the declaration under the name that `key?` gives it. -/
def Contributing (key? : Entry → Option String) : Prop :=
  ∀ entry name, key? entry = some name → name ∈ entry.contributes

theorem contributing_nameIf {kind : DeclKind}
    (h : kind = .classDecl ∨ kind = .aliasDecl ∨ kind = .global) : Contributing (nameIf kind) := by
  intro entry name named
  rw [nameIf] at named
  split at named
  · cases named
    rename_i same
    rcases h with rfl | rfl | rfl <;> simp [contributes, same]
  · cases named

theorem contributing_ownerClass : Contributing ownerClass? := by
  intro entry name owned
  rw [ownerClass?] at owned
  split at owned
  · cases owned
    rename_i h
    simp [contributes, h]
  · cases owned

theorem contributing_ownerGlobal : Contributing ownerGlobal? := by
  intro entry name owned
  rw [ownerGlobal?] at owned
  split at owned
  · cases owned
    rename_i h
    simp [contributes, h]
  · cases owned

end Entry

namespace IndexedFile

variable {key? : Entry → Option String} {name : String} {file : IndexedFile} {key : DeclKey}

theorem mem_listed (mem : key ∈ file.listed key? name) :
    key.file = file.file ∧ ∃ entry, file.decls.entry? key.decl = some entry ∧
      key? entry = some name := by
  rw [listed_eq] at mem
  obtain ⟨⟨entry, decl⟩, found, rfl⟩ := List.mem_map.mp mem
  obtain ⟨found, named⟩ := List.mem_filter.mp found
  refine ⟨rfl, entry, ?_, by simpa using named⟩
  have at_index : file.decls.table.entries.toList[decl]? = some entry :=
    List.mk_mem_zipIdx_iff_getElem?.mp found
  rwa [Array.getElem?_toList] at at_index

theorem listed_eq_nil (contributing : Entry.Contributing key?)
    (h : name ∉ file.decls.contributedNames) : file.listed key? name = [] := by
  refine List.eq_nil_iff_forall_not_mem.mpr fun key mem => h ?_
  obtain ⟨-, entry, found, named⟩ := mem_listed mem
  rw [FileDecls.contributedNames, mem_dedupSorted, mem_sortNames]
  refine List.mem_flatMap.mpr ⟨entry, ?_, contributing entry name named⟩
  exact Array.mem_toList_iff.mpr (Array.mem_of_getElem? found)

end IndexedFile

/-- The two projects differ in one file at most, and all names to which either version of the file
contributes are among `names`. -/
structure DifferIn (edited : FileId) (names : List String) (before after : List IndexedFile) :
    Prop where
  distinctBefore : before.Pairwise fun a b => a.file ≠ b.file
  distinctAfter : after.Pairwise fun a b => a.file ≠ b.file
  others : after.filter (fun file => file.file != edited)
    = before.filter fun file => file.file != edited
  namesBefore : ∀ file ∈ before, file.file = edited → file.decls.contributedNames ⊆ names
  namesAfter : ∀ file ∈ after, file.file = edited → file.decls.contributedNames ⊆ names

namespace DifferIn

variable {edited : FileId} {names : List String} {before after : List IndexedFile}
  (differ : DifferIn edited names before after)
  {key? : Entry → Option String} {name : String}
include differ

theorem symm : DifferIn edited names after before :=
  ⟨differ.distinctAfter, differ.distinctBefore, differ.others.symm, differ.namesAfter,
    differ.namesBefore⟩

theorem mono {names' : List String} (more : names ⊆ names') :
    DifferIn edited names' before after :=
  { differ with
    namesBefore := fun file mem same => List.Subset.trans (differ.namesBefore file mem same) more
    namesAfter := fun file mem same => List.Subset.trans (differ.namesAfter file mem same) more }

/-- Nothing in the edited file is seen under any other name. -/
theorem flatMap_others (contributing : Entry.Contributing key?) (unchanged : name ∉ names) :
    (before.filter fun file => file.file != edited).flatMap (IndexedFile.listed key? name)
      = before.flatMap (IndexedFile.listed key? name) := by
  have none_listed : ∀ file ∈ before, file.file = edited → file.listed key? name = [] :=
    fun file mem same => IndexedFile.listed_eq_nil contributing fun hit =>
      unchanged (differ.namesBefore file mem same hit)
  -- the induction is on the files alone, of which this is all that is needed
  clear differ
  induction before with
  | nil => rfl
  | cons file rest ih =>
    have later := ih fun other mem => none_listed other (List.mem_cons_of_mem file mem)
    rw [List.flatMap_cons, List.filter_cons]
    by_cases same : file.file = edited
    · rw [none_listed file List.mem_cons_self same]
      simpa [same] using later
    · simpa [same] using later

theorem flatMap_eq (contributing : Entry.Contributing key?) (unchanged : name ∉ names) :
    after.flatMap (IndexedFile.listed key? name)
      = before.flatMap (IndexedFile.listed key? name) := by
  rw [← differ.flatMap_others contributing unchanged,
    ← differ.symm.flatMap_others contributing unchanged, differ.others]

theorem file?_eq {file : FileId} (other : file ≠ edited) :
    (Snapshot.ofFiles after).file? file = (Snapshot.ofFiles before).file? file := by
  -- the edited file is none of those that are looked for
  have among_others (files : List IndexedFile) :
      (files.filter fun other => other.file != edited).find? (fun other => other.file == file)
        = files.find? fun other => other.file == file := by
    rw [List.find?_filter]
    congr 1
    funext indexed
    by_cases same : indexed.file = file <;> simp [same, other]
  rw [Snapshot.file?_ofFiles differ.distinctBefore, Snapshot.file?_ofFiles differ.distinctAfter,
    ← among_others before, ← among_others after, differ.others]

theorem entry?_eq {key : DeclKey} (other : key.file ≠ edited) :
    Snapshot.entry? (.ofFiles after) key = Snapshot.entry? (.ofFiles before) key := by
  rw [Snapshot.entry?, Snapshot.entry?, Snapshot.decls?, Snapshot.decls?, differ.file?_eq other]

/-- What is seen under any other name is declared in another file. -/
theorem entry?_listed (contributing : Entry.Contributing key?) (unchanged : name ∉ names)
    {key : DeclKey} (mem : key ∈ before.flatMap (IndexedFile.listed key? name)) :
    Snapshot.entry? (.ofFiles after) key = Snapshot.entry? (.ofFiles before) key := by
  rw [← differ.flatMap_others contributing unchanged] at mem
  obtain ⟨file, file_mem, mem⟩ := List.mem_flatMap.mp mem
  refine differ.entry?_eq ?_
  rw [(IndexedFile.mem_listed mem).1]
  simpa using (List.mem_filter.mp file_mem).2

/-! ## Members of classes -/

section Names

variable (unchanged : name ∉ names)
include unchanged

theorem globalDecls_eq :
    (Snapshot.ofFiles after).globalDecls name = (Snapshot.ofFiles before).globalDecls name := by
  rw [Snapshot.globalDecls_ofFiles, Snapshot.globalDecls_ofFiles]
  exact differ.flatMap_eq (Entry.contributing_nameIf (.inr (.inr rfl))) unchanged

theorem globalMembers_eq :
    (Snapshot.ofFiles after).globalMembers name = (Snapshot.ofFiles before).globalMembers name := by
  rw [Snapshot.globalMembers_ofFiles, Snapshot.globalMembers_ofFiles]
  exact differ.flatMap_eq Entry.contributing_ownerGlobal unchanged

theorem globalHoldsClass_eq : (Snapshot.ofFiles after).globalHoldsClass name
    = (Snapshot.ofFiles before).globalHoldsClass name := by
  rw [Snapshot.globalHoldsClass, Snapshot.globalHoldsClass, differ.globalDecls_eq unchanged,
    Bool.eq_iff_iff, List.any_eq_true, List.any_eq_true]
  refine exists_congr fun key => and_congr_right fun mem => ?_
  rw [Snapshot.globalDecls_ofFiles] at mem
  rw [differ.entry?_listed (Entry.contributing_nameIf (.inr (.inr rfl))) unchanged mem]

theorem classMembers_eq :
    (Snapshot.ofFiles after).classMembers name = (Snapshot.ofFiles before).classMembers name := by
  have attached : (Snapshot.ofFiles after).attachedToClass.list name
      = (Snapshot.ofFiles before).attachedToClass.list name := by
    rw [Snapshot.attachedToClass_ofFiles, Snapshot.attachedToClass_ofFiles]
    exact differ.flatMap_eq Entry.contributing_ownerClass unchanged
  rw [Snapshot.classMembers, Snapshot.classMembers, attached,
    differ.globalHoldsClass_eq unchanged, differ.globalMembers_eq unchanged]

theorem globalMemberEntry {key : DeclKey}
    (mem : key ∈ (Snapshot.ofFiles before).globalMembers name) :
    Snapshot.entry? (.ofFiles after) key = Snapshot.entry? (.ofFiles before) key := by
  rw [Snapshot.globalMembers_ofFiles] at mem
  exact differ.entry?_listed Entry.contributing_ownerGlobal unchanged mem

theorem classMemberEntry {key : DeclKey}
    (mem : key ∈ (Snapshot.ofFiles before).classMembers name) :
    Snapshot.entry? (.ofFiles after) key = Snapshot.entry? (.ofFiles before) key := by
  have attached (mem : key ∈ (Snapshot.ofFiles before).attachedToClass.list name) :
      Snapshot.entry? (.ofFiles after) key = Snapshot.entry? (.ofFiles before) key := by
    rw [Snapshot.attachedToClass_ofFiles] at mem
    exact differ.entry?_listed Entry.contributing_ownerClass unchanged mem
  rw [Snapshot.classMembers] at mem
  split at mem
  · rcases List.mem_append.mp (List.mem_mergeSort.mp mem) with mem | mem
    · exact attached mem
    · exact differ.globalMemberEntry unchanged mem
  · exact attached mem

end Names

end DifferIn

/-! ## The index -/

/-- The declarations of a file are those of its tree. -/
def IndexedFile.Collected (file : IndexedFile) : Prop := file.decls = .ofTree file.file file.tree

theorem find?_of_mem {files : List IndexedFile}
    (distinct : files.Pairwise fun a b => a.file ≠ b.file) {indexed : IndexedFile}
    (mem : indexed ∈ files) :
    files.find? (fun other => other.file == indexed.file) = some indexed := by
  induction distinct with
  | nil => cases mem
  | cons first _ ih =>
    rcases List.mem_cons.mp mem with rfl | mem
    · simp
    · rw [List.find?_cons_of_neg (by simpa using first _ mem), ih mem]

/-- What is listed under a name is declared under it. -/
theorem Snapshot.entry?_of_listed {files : List IndexedFile}
    (distinct : files.Pairwise fun a b => a.file ≠ b.file) {key? : Entry → Option String}
    {name : String} {key : DeclKey} {entry : Entry}
    (mem : key ∈ files.flatMap (IndexedFile.listed key? name))
    (found : Snapshot.entry? (ofFiles files) key = some entry) : key? entry = some name := by
  obtain ⟨indexed, indexed_mem, mem⟩ := List.mem_flatMap.mp mem
  obtain ⟨same, entry', found', named⟩ := IndexedFile.mem_listed mem
  rw [Snapshot.entry?, decls?, file?_ofFiles distinct, same,
    find?_of_mem distinct indexed_mem] at found
  cases found'.symm.trans found
  exact named

/-- Globals are declared as globals. -/
theorem Snapshot.kind_of_mem_globalDecls {files : List IndexedFile}
    (distinct : files.Pairwise fun a b => a.file ≠ b.file) {name : String} {key : DeclKey}
    {entry : Entry} (mem : key ∈ (ofFiles files).globalDecls name)
    (found : Snapshot.entry? (ofFiles files) key = some entry) : entry.kind = .global := by
  rw [globalDecls_ofFiles] at mem
  have named := entry?_of_listed distinct mem found
  rw [Entry.nameIf] at named
  split at named
  · assumption
  · cases named

namespace Index

/-- The files are in ascending order, and a snapshot that is kept for the current version is the one
of the current files. -/
structure Valid (index : Index) : Prop where
  ascending : index.files.Pairwise fun a b => a.file.number < b.file.number
  kept : ∀ version snapshot, index.kept = some (version, snapshot) →
    version ≤ index.version ∧ (version = index.version → snapshot = .ofFiles index.files)

variable {index : Index} (valid : index.Valid)

theorem valid_empty : Index.empty.Valid := ⟨.nil, fun _ _ kept => by cases kept⟩

theorem files_snapshot (index : Index) : index.snapshot.2.files = index.files := by
  rw [snapshot]
  split
  · split <;> rfl
  · rfl

section Valid

include valid

theorem Valid.distinct : index.files.Pairwise fun a b => a.file ≠ b.file :=
  valid.ascending.imp fun less same => by simp [same] at less

theorem Valid.snapshot_eq : index.snapshot.1 = .ofFiles index.files := by
  rw [snapshot]
  split
  · rename_i version snapshot kept
    split
    · rename_i current
      exact (valid.kept version snapshot kept).2 (by simpa using current)
    · rfl
  · rfl

theorem Valid.contributedNames_of_mem {indexed : IndexedFile} (mem : indexed ∈ index.files) :
    index.contributedNames indexed.file = indexed.decls.contributedNames := by
  rw [contributedNames, Index.file?, find?_of_mem valid.distinct mem]
  rfl

theorem Valid.snapshot : index.snapshot.2.Valid := by
  have renewed : (snapshot.renew index).2.Valid := by
    refine ⟨valid.ascending, fun version snapshot kept => ?_⟩
    cases kept
    exact ⟨Nat.le_refl _, fun _ => rfl⟩
  rw [Index.snapshot]
  split
  · split
    · exact valid
    · exact renewed
  · exact renewed

/-- A snapshot that was kept before a change is not the current one after it. -/
theorem Valid.changed {files : List IndexedFile}
    (ascending : files.Pairwise fun a b => a.file.number < b.file.number) (generation : Nat) :
    Valid ⟨files, generation, index.version + 1, index.kept⟩ := by
  refine ⟨ascending, fun version snapshot kept => ?_⟩
  have earlier := (valid.kept version snapshot kept).1
  refine ⟨Nat.le_succ_of_le earlier, fun current => ?_⟩
  exact absurd (current ▸ earlier) (Nat.not_succ_le_self _)

end Valid

/-! ## Replacing a file -/

theorem mem_place {added other : IndexedFile} {files : List IndexedFile}
    (mem : other ∈ place added files) : other = added ∨ other ∈ files := by
  induction files with
  | nil => exact .inl (List.mem_singleton.mp mem)
  | cons first rest ih =>
    rw [place] at mem
    split at mem
    · exact (List.mem_cons.mp mem).imp id (List.mem_cons_of_mem first)
    · split at mem
      · exact List.mem_cons.mp mem
      · rcases List.mem_cons.mp mem with rfl | mem
        · exact .inr List.mem_cons_self
        · exact (ih mem).imp id (List.mem_cons_of_mem first)

theorem filter_place (added : IndexedFile) (files : List IndexedFile) :
    (place added files).filter (fun file => file.file != added.file)
      = files.filter fun file => file.file != added.file := by
  induction files with
  | nil => simp [place]
  | cons first rest ih =>
    rw [place]
    split
    · rename_i same
      simp [show first.file = added.file by simpa using same]
    · split
      · simp
      · rw [List.filter_cons, List.filter_cons, ih]

theorem ascending_place {added : IndexedFile} {files : List IndexedFile}
    (h : files.Pairwise fun a b => a.file.number < b.file.number) :
    (place added files).Pairwise fun a b => a.file.number < b.file.number := by
  induction h with
  | nil => exact List.pairwise_singleton _ _
  | @cons first rest after_first ordered ih =>
    rw [place]
    split
    · rename_i same
      have same : first.file = added.file := by simpa using same
      exact List.pairwise_cons.mpr ⟨fun other mem => same ▸ after_first other mem, ordered⟩
    · rename_i other_file
      split
      · rename_i less
        refine List.pairwise_cons.mpr ⟨?_, List.pairwise_cons.mpr ⟨after_first, ordered⟩⟩
        intro other mem
        rcases List.mem_cons.mp mem with rfl | mem
        · exact less
        · exact Nat.lt_trans less (after_first other mem)
      · rename_i notLess
        refine List.pairwise_cons.mpr ⟨fun other mem => ?_, ih⟩
        rcases mem_place mem with rfl | mem
        · have different : first.file.number ≠ other.file.number := by
            intro same
            apply other_file
            cases hf : first.file
            cases ho : other.file
            simp_all
          omega
        · exact after_first other mem

section Edits

include valid

theorem Valid.setFile (file : FileId) (tree : Tree) : (index.setFile file tree).2.Valid :=
  valid.changed (ascending_place valid.ascending) _

theorem Valid.removeFile (file : FileId) : (index.removeFile file).2.Valid := by
  rw [Index.removeFile]
  split
  · exact valid.changed (valid.ascending.filter _) _
  · exact valid

/-- Replacing a file changes no other file, and no name but those to which its two versions
contribute. -/
theorem Valid.differIn_setFile (file : FileId) (tree : Tree) :
    DifferIn file
      (index.contributedNames file ++ (index.setFile file tree).2.contributedNames file)
      index.files (index.setFile file tree).2.files where
  distinctBefore := valid.distinct
  distinctAfter := (valid.setFile file tree).distinct
  others :=
    filter_place ⟨file, index.lastGeneration + 1, tree, .ofTree file tree⟩ index.files
  namesBefore := by
    rintro indexed mem rfl
    rw [valid.contributedNames_of_mem mem]
    exact List.subset_append_left _ _
  namesAfter := by
    rintro indexed mem rfl
    rw [(valid.setFile indexed.file tree).contributedNames_of_mem mem]
    exact List.subset_append_right _ _

/-- Removing a file changes no other file, and no name but those to which it contributes. -/
theorem Valid.differIn_removeFile (file : FileId) :
    DifferIn file (index.contributedNames file) index.files (index.removeFile file).2.files where
  distinctBefore := valid.distinct
  distinctAfter := (valid.removeFile file).distinct
  others := by
    rw [Index.removeFile]
    split
    · rw [List.filter_filter]
      exact List.filter_congr fun _ _ => Bool.and_self _
    · rfl
  namesBefore := by
    rintro indexed mem rfl
    rw [valid.contributedNames_of_mem mem]
    exact List.Subset.refl _
  namesAfter := by
    rintro indexed mem rfl
    have before : indexed ∈ index.files := by
      rw [Index.removeFile] at mem
      split at mem
      · exact (List.mem_filter.mp mem).1
      · exact mem
    rw [valid.contributedNames_of_mem before]
    exact List.Subset.refl _

end Edits

end Index

end LuaTyping
