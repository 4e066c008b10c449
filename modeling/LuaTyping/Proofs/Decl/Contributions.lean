import LuaTyping.Proofs.Decl.ClassTables
import LuaTyping.Proofs.Decl.Revisions
import Mathlib.Data.List.Basic

/-!
# Names to which a file contributes

A change of a file drops what other files have read under the names to which the old or the new
version of the file contributes. That these are enough is a matter of look-ups by name: whatever a
project answers about any other name is the same before and after the change, and so is every
declaration that the answer points to.

Seven look-ups take a name. Most list the declarations to which one table gives the name. The
supertypes of a class are read from its declarations, and its members come from two tables, of
which the second counts only where a global of that name holds the table of the class.
-/

set_option autoImplicit false

namespace LuaTyping

/-- What is found under a name is the same in both projects. -/
structure Snapshot.AlikeUnder (name : String) (before after : Snapshot) : Prop where
  classDecls : after.classDecls name = before.classDecls name
  aliasDecls : after.aliasDecls name = before.aliasDecls name
  globalDecls : after.globalDecls name = before.globalDecls name
  isClass : after.isClass name = before.isClass name
  supertypes : after.supertypes name = before.supertypes name
  classMembers : after.classMembers name = before.classMembers name
  globalMembers : after.globalMembers name = before.globalMembers name
  entry? : ∀ key ∈ before.classDecls name ++ before.aliasDecls name ++ before.globalDecls name
      ++ before.classMembers name ++ before.globalMembers name,
    Snapshot.entry? after key = Snapshot.entry? before key

namespace DifferIn

variable {edited : FileId} {names : List String} {before after : List IndexedFile}
  (differ : DifferIn edited names before after) {name : String} (unchanged : name ∉ names)
include differ unchanged

theorem classDecls_eq :
    (Snapshot.ofFiles after).classDecls name = (Snapshot.ofFiles before).classDecls name := by
  rw [Snapshot.classDecls_ofFiles, Snapshot.classDecls_ofFiles]
  exact differ.flatMap_eq (Entry.contributing_nameIf (.inl rfl)) unchanged

theorem aliasDecls_eq :
    (Snapshot.ofFiles after).aliasDecls name = (Snapshot.ofFiles before).aliasDecls name := by
  rw [Snapshot.aliasDecls_ofFiles, Snapshot.aliasDecls_ofFiles]
  exact differ.flatMap_eq (Entry.contributing_nameIf (.inr (.inl rfl))) unchanged

/-- A class, alias or global of that name is declared as it was. -/
theorem declEntry {key : DeclKey}
    (mem : key ∈ (Snapshot.ofFiles before).classDecls name
      ∨ key ∈ (Snapshot.ofFiles before).aliasDecls name
      ∨ key ∈ (Snapshot.ofFiles before).globalDecls name) :
    Snapshot.entry? (.ofFiles after) key = Snapshot.entry? (.ofFiles before) key := by
  rw [Snapshot.classDecls_ofFiles, Snapshot.aliasDecls_ofFiles, Snapshot.globalDecls_ofFiles] at mem
  rcases mem with mem | mem | mem
  · exact differ.entry?_listed (Entry.contributing_nameIf (.inl rfl)) unchanged mem
  · exact differ.entry?_listed (Entry.contributing_nameIf (.inr (.inl rfl))) unchanged mem
  · exact differ.entry?_listed (Entry.contributing_nameIf (.inr (.inr rfl))) unchanged mem

theorem supertypes_eq :
    (Snapshot.ofFiles after).supertypes name = (Snapshot.ofFiles before).supertypes name := by
  rw [Snapshot.supertypes, Snapshot.supertypes, differ.classDecls_eq unchanged]
  refine List.foldl_ext _ _ _ fun supers key mem => ?_
  rw [differ.declEntry unchanged (.inl mem)]

theorem alikeUnder : Snapshot.AlikeUnder name (.ofFiles before) (.ofFiles after) where
  classDecls := differ.classDecls_eq unchanged
  aliasDecls := differ.aliasDecls_eq unchanged
  globalDecls := differ.globalDecls_eq unchanged
  isClass := by
    rw [Snapshot.isClass_ofFiles, Snapshot.isClass_ofFiles, differ.classDecls_eq unchanged]
  supertypes := differ.supertypes_eq unchanged
  classMembers := differ.classMembers_eq unchanged
  globalMembers := differ.globalMembers_eq unchanged
  entry? key mem := by
    simp only [List.mem_append] at mem
    rcases mem with (((mem | mem) | mem) | mem) | mem
    · exact differ.declEntry unchanged (.inl mem)
    · exact differ.declEntry unchanged (.inr (.inl mem))
    · exact differ.declEntry unchanged (.inr (.inr mem))
    · exact differ.classMemberEntry unchanged mem
    · exact differ.globalMemberEntry unchanged mem

end DifferIn

namespace Index

theorem contributedNames_setFile (index : Index) (file : FileId) (tree : Tree) :
    (index.setFile file tree).2.contributedNames file
      = (FileDecls.ofTree file tree).contributedNames := by
  rw [contributedNames, file?_setFile, if_pos rfl]
  rfl

/-- Replacing or removing a file changes nothing that is found under a name to which neither the old
nor the new version of the file contributes. -/
theorem alikeUnder_edit (calls : List Call) (file : FileId) {name : String}
    (old : name ∉ (afterCalls calls).contributedNames file) :
    (∀ tree, name ∉ (FileDecls.ofTree file tree).contributedNames →
      Snapshot.AlikeUnder name (afterCalls calls).snapshot.1
        ((afterCalls calls).setFile file tree).2.snapshot.1) ∧
    Snapshot.AlikeUnder name (afterCalls calls).snapshot.1
      ((afterCalls calls).removeFile file).2.snapshot.1 := by
  have valid := (has_afterCalls calls).valid
  refine ⟨fun tree new => ?_, ?_⟩
  · rw [valid.snapshot_eq, (valid.setFile file tree).snapshot_eq]
    refine (valid.differIn_setFile file tree).alikeUnder ?_
    rw [contributedNames_setFile, List.mem_append]
    exact not_or.mpr ⟨old, new⟩
  · rw [valid.snapshot_eq, (valid.removeFile file).snapshot_eq]
    exact (valid.differIn_removeFile file).alikeUnder old

open SplitClass in
theorem mem_contributedNames_memberTree {file : FileId} {global name : String} :
    name ∈ (FileDecls.ofTree file (memberTree global)).contributedNames ↔ name = global := by
  have entries : (Collect.run (memberTree global)).table.entries = #[attached global] := by
    have doc (node : Nat) : (memberTree global).doc? (some node) = none :=
      Std.HashMap.getElem?_empty
    have root : (memberTree global).form? (memberTree global).root = some (.chunk (some 4)) := rfl
    have block : (memberTree global).form? (some 4) = some (.block [some 3]) := rfl
    have depth : Collect.depthBound (memberTree global) = 24 := rfl
    simp only [Collect.run, root, depth, Collect.visitWithin, Collect.visitStep, block,
      List.forM_eq_forM, List.forM_cons, List.forM_nil, doc]
    rfl
  have contributed : (attached global).contributes = [global] := rfl
  rw [FileDecls.contributedNames, mem_dedupSorted, mem_sortNames, FileDecls.ofTree,
    FileDecls.ofCollector, entries]
  simp [contributed]

open SplitClass in
/-- The class `Point` of the first file is found as before when the second file assigns to a member
of another global. -/
theorem alikeUnder_edit_point :
    let index := afterCalls
      [.setFile ⟨1⟩ (holderTree "Point"), .setFile ⟨2⟩ (memberTree "point"), .snapshot]
    "Point" ∉ index.contributedNames ⟨2⟩ ∧
      "Point" ∉ (FileDecls.ofTree ⟨2⟩ (memberTree "points")).contributedNames ∧
      Snapshot.AlikeUnder "Point" index.snapshot.1
        (index.setFile ⟨2⟩ (memberTree "points")).2.snapshot.1 ∧
      Snapshot.AlikeUnder "Point" index.snapshot.1 (index.removeFile ⟨2⟩).2.snapshot.1 := by
  intro index
  have old : "Point" ∉ index.contributedNames ⟨2⟩ := by
    have same : index.contributedNames ⟨2⟩
        = (FileDecls.ofTree ⟨2⟩ (memberTree "point")).contributedNames := rfl
    rw [same, mem_contributedNames_memberTree]
    decide
  have new : "Point" ∉ (FileDecls.ofTree ⟨2⟩ (memberTree "points")).contributedNames := by
    rw [mem_contributedNames_memberTree]
    decide
  obtain ⟨replaced, removed⟩ := alikeUnder_edit
    [.setFile ⟨1⟩ (holderTree "Point"), .setFile ⟨2⟩ (memberTree "point"), .snapshot] ⟨2⟩ old
  exact ⟨old, new, replaced _ new, removed⟩

end Index

end LuaTyping
