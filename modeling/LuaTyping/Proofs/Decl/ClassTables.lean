import LuaTyping.Proofs.Decl.Tables

/-!
# Globals that hold the table of a class

A global may be documented as the table of a class, and a member that another file assigns to the
global is attached to it by its name. Whether the class lists such a member depends on the names:
the class looks for members at the global of its own name and at no other. So of all globals that
hold its table it takes the members of one.
-/

set_option autoImplicit false

namespace LuaTyping

namespace Snapshot

/-- Of the members attached to globals, a class has those of the global of its own name, if that
one holds its table. -/
theorem isMemberOf_iff_of_ofGlobal {snapshot : Snapshot} {className global : String}
    {entry : Entry} (attached : entry.memberOwner? = some (.ofGlobal global)) :
    snapshot.IsMemberOf className entry ↔ snapshot.HoldsClass className ∧ global = className := by
  simp [IsMemberOf, attached]

variable {files : List IndexedFile}

/-- A global holds the table of a class, and a member is attached to the global. The class lists
the member exactly if the global has the name of the class. -/
theorem globalMember_mem_classMembers_iff
    (ascending : files.Pairwise fun a b => a.file.number < b.file.number)
    {className global : String} {holder member : DeclKey} {holding attached : Entry}
    (found : Snapshot.entry? (ofFiles files) holder = some holding)
    (is_global : holding.kind = .global) (named : holding.name = global)
    (holds : holding.className = some className)
    (found_member : Snapshot.entry? (ofFiles files) member = some attached)
    (is_member : attached.kind = .field ∨ attached.kind = .function)
    (owned : attached.owner = some (.ofGlobal global)) :
    member ∈ (ofFiles files).classMembers className ↔ global = className := by
  have owner : attached.memberOwner? = some (.ofGlobal global) := by
    rcases is_member with kind | kind <;> simp [Entry.memberOwner?, DeclKind.isMember, kind, owned]
  rw [(lists_classMembers ascending className).mem_iff, found_member]
  simp only [Option.some.injEq, exists_eq_left', isMemberOf_iff_of_ofGlobal owner]
  refine ⟨And.right, ?_⟩
  rintro rfl
  exact ⟨⟨holder, holding, found, is_global, named, holds⟩, rfl⟩

end Snapshot

/-! ## A class and its table in two files -/

namespace SplitClass

/-- A global that holds the table of a class: `---@class Point` at `global = nil`. -/
def holderTree (global : String) : Tree where
  nodes := #[
    ⟨.name global, ⟨0, 1⟩, some 2⟩, ⟨.nil, ⟨2, 3⟩, some 2⟩,
    ⟨.assign [some 0] [some 1], ⟨0, 5⟩, some 3⟩, ⟨.block [some 2], ⟨0, 7⟩, some 4⟩,
    ⟨.chunk (some 3), ⟨0, 9⟩, none⟩]
  docs := .ofList [(2, ⟨[.classTag "Point" []]⟩)]
  root := some 4

/-- A member of the global: `global.x = nil`. -/
def memberTree (global : String) : Tree where
  nodes := #[
    ⟨.name global, ⟨0, 1⟩, some 1⟩, ⟨.index (some 0) (.named "x"), ⟨0, 3⟩, some 3⟩,
    ⟨.nil, ⟨4, 5⟩, some 3⟩, ⟨.assign [some 1] [some 2], ⟨0, 7⟩, some 4⟩,
    ⟨.block [some 3], ⟨0, 9⟩, some 5⟩, ⟨.chunk (some 4), ⟨0, 11⟩, none⟩]
  docs := ∅
  root := some 5

/-- The two files. -/
def project (global : String) : List IndexedFile :=
  [⟨⟨1⟩, 1, holderTree global, .ofTree ⟨1⟩ (holderTree global)⟩,
    ⟨⟨2⟩, 2, memberTree global, .ofTree ⟨2⟩ (memberTree global)⟩]

/-- What is recorded of the global. -/
def holding (global : String) : Entry :=
  { Entry.plain 1 .global global (some 0) (some 0) ⟨0, 1⟩ with
    declared := some (.aliasRef "Point" [])
    initializer := some ⟨some 1, 0, .literal⟩
    visibleFrom := 5
    className := some "Point" }

/-- What is recorded of the member. -/
def attached (global : String) : Entry :=
  { Entry.plain 0 .field "x" (some 0) (some 1) ⟨0, 3⟩ with
    initializer := some ⟨some 2, 0, .literal⟩
    owner := some (.ofGlobal global) }

theorem entry?_holder (global : String) :
    FileDecls.entry? (.ofTree ⟨1⟩ (holderTree global)) 1 = some (holding global) := by
  have doc : (holderTree global).doc? (some 2) = some ⟨[.classTag "Point" []]⟩ :=
    Std.HashMap.getElem?_ofList_of_mem (k := 2) rfl (by simp) (by simp)
  have root : (holderTree global).form? (holderTree global).root = some (.chunk (some 3)) := rfl
  have block : (holderTree global).form? (some 3) = some (.block [some 2]) := rfl
  have depth : Collect.depthBound (holderTree global) = 21 := rfl
  simp only [FileDecls.ofTree, FileDecls.ofCollector, FileDecls.entry?, Collect.run, root, depth,
    Collect.visitWithin, Collect.visitStep, block, List.forM_eq_forM, List.forM_cons,
    List.forM_nil, doc]
  rfl

theorem entry?_member (global : String) :
    FileDecls.entry? (.ofTree ⟨2⟩ (memberTree global)) 0 = some (attached global) := by
  have doc (node : Nat) : (memberTree global).doc? (some node) = none := Std.HashMap.getElem?_empty
  have root : (memberTree global).form? (memberTree global).root = some (.chunk (some 4)) := rfl
  have block : (memberTree global).form? (some 4) = some (.block [some 3]) := rfl
  have depth : Collect.depthBound (memberTree global) = 24 := rfl
  simp only [FileDecls.ofTree, FileDecls.ofCollector, FileDecls.entry?, Collect.run, root, depth,
    Collect.visitWithin, Collect.visitStep, block, List.forM_eq_forM, List.forM_cons,
    List.forM_nil, doc]
  rfl

theorem ascending (global : String) :
    (project global).Pairwise fun a b => a.file.number < b.file.number := by
  simp [project]

theorem entry?_eq (global : String) :
    Snapshot.entry? (.ofFiles (project global)) ⟨⟨1⟩, 1⟩ = some (holding global) ∧
      Snapshot.entry? (.ofFiles (project global)) ⟨⟨2⟩, 0⟩ = some (attached global) := by
  have distinct : (project global).Pairwise fun a b => a.file ≠ b.file := by simp [project]
  rw [Snapshot.entry?_eq_some_iff distinct, Snapshot.entry?_eq_some_iff distinct]
  exact ⟨⟨_, .head _, rfl, entry?_holder global⟩, ⟨_, .tail _ (.head _), rfl, entry?_member global⟩⟩

end SplitClass

open SplitClass in
/-- The member is listed with the class where the global is named like it. -/
theorem Snapshot.globalMember_mem_classMembers_point :
    (⟨⟨2⟩, 0⟩ : DeclKey) ∈ (Snapshot.ofFiles (project "Point")).classMembers "Point" :=
  (globalMember_mem_classMembers_iff (ascending "Point") (entry?_eq "Point").1 rfl rfl rfl
    (entry?_eq "Point").2 (.inl rfl) rfl).mpr rfl

open SplitClass in
/-- The global `point` holds the table of the class `Point`, but what is assigned to `point.x` in
another file is no member of the class. -/
theorem Snapshot.globalMember_not_mem_classMembers :
    ∃ holding attached,
      Snapshot.entry? (.ofFiles (project "point")) ⟨⟨1⟩, 1⟩ = some holding ∧
      holding.kind = .global ∧ holding.name = "point" ∧ holding.className = some "Point" ∧
      Snapshot.entry? (.ofFiles (project "point")) ⟨⟨2⟩, 0⟩ = some attached ∧
      attached.kind = .field ∧ attached.owner = some (.ofGlobal "point") ∧
      ⟨⟨2⟩, 0⟩ ∉ (Snapshot.ofFiles (project "point")).classMembers "Point" := by
  obtain ⟨found, found_member⟩ := entry?_eq "point"
  refine ⟨_, _, found, rfl, rfl, rfl, found_member, rfl, rfl, fun listed => ?_⟩
  obtain ⟨entry, is_entry, member⟩ :=
    ((lists_classMembers (ascending "point") "Point").mem_iff _).mp listed
  cases found_member.symm.trans is_entry
  have owner : (attached "point").memberOwner? = some (.ofGlobal "point") := rfl
  exact absurd ((isMemberOf_iff_of_ofGlobal owner).mp member).2 (by decide)

end LuaTyping
