import LuaTyping.Decl.Resolve
import LuaTyping.Proofs.Decl.Snapshot
import Mathlib.Data.List.Forall2

/-!
# Overridden initialisers

A declaration whose type is documented is initialised all the same. Two versions of a project may
differ in nothing but such initialisers. `UpToOverridden` says so of declarations, of files and of
snapshots, and this file goes through the questions that a snapshot is asked: all but the one for a
declaration itself have the same answer in both versions.
-/

set_option autoImplicit false

namespace LuaTyping

/-- The two declarations differ at most in their initialisers, and not even there unless their type
is documented. -/
structure Entry.UpToOverridden (entry other : Entry) : Prop where
  eq_with : other = { entry with initializer := other.initializer }
  initializer : entry.declared = none → other.initializer = entry.initializer

/-- The declarations of a file, up to overridden initialisers. -/
structure FileDecls.UpToOverridden (decls other : FileDecls) : Prop where
  eq_with : other = { decls with table := { decls.table with entries := other.table.entries } }
  entries : ∀ decl : Nat,
    Option.Rel Entry.UpToOverridden decls.table.entries[decl]? other.table.entries[decl]?

/-- A file, up to overridden initialisers. -/
structure IndexedFile.UpToOverridden (file other : IndexedFile) : Prop where
  eq_with : other = { file with decls := other.decls }
  decls : file.decls.UpToOverridden other.decls

/-- A snapshot, up to overridden initialisers. -/
structure Snapshot.UpToOverridden (snapshot other : Snapshot) : Prop where
  eq_with : other = { snapshot with files := other.files, byFile := other.byFile }
  files : List.Forall₂ IndexedFile.UpToOverridden snapshot.files other.files
  byFile : ∀ file : FileId,
    Option.Rel IndexedFile.UpToOverridden snapshot.byFile[file]? other.byFile[file]?

/-- Related optional values are both there or both missing. -/
theorem optionRel_cases {α : Type} {r : α → α → Prop} {a b : Option α} (h : Option.Rel r a b) :
    a = none ∧ b = none ∨ ∃ x y, a = some x ∧ b = some y ∧ r x y := by
  cases h with
  | none => exact .inl ⟨rfl, rfl⟩
  | some related => exact .inr ⟨_, _, rfl, rfl, related⟩

theorem optionRel_refl {α : Type} {r : α → α → Prop} (h : ∀ x, r x x) (a : Option α) :
    Option.Rel r a a := by
  cases a with
  | none => exact .none
  | some x => exact .some (h x)

namespace Entry.UpToOverridden

variable {entry other : Entry}

theorem refl (entry : Entry) : entry.UpToOverridden entry := ⟨rfl, fun _ => rfl⟩

/-- What does not look at initialisers does not tell the declarations apart. -/
theorem view {α : Type} (h : entry.UpToOverridden other) (f : Entry → α)
    (blind : ∀ init, f { entry with initializer := init } = f entry) : f other = f entry := by
  rw [h.eq_with]
  exact blind _

/-- Without a documented type there is nothing to override. -/
theorem eq_of_undocumented (h : entry.UpToOverridden other) (undocumented : entry.declared = none) :
    other = entry := by
  rw [h.eq_with, h.initializer undocumented]

end Entry.UpToOverridden

/-! ## In a file -/

namespace FileDecls.UpToOverridden

theorem refl (decls : FileDecls) : decls.UpToOverridden decls :=
  ⟨rfl, fun _ => optionRel_refl Entry.UpToOverridden.refl _⟩

variable {decls other : FileDecls} (h : decls.UpToOverridden other)
include h

theorem declForNode?_eq (node : NodeRef) : other.declForNode? node = decls.declForNode? node := by
  rw [h.eq_with]
  rfl

theorem function?_eq (node : NodeRef) : other.function? node = decls.function? node := by
  rw [h.eq_with]
  rfl

theorem memberDecls_eq (owner : Owner) : other.memberDecls owner = decls.memberDecls owner := by
  rw [h.eq_with]
  rfl

theorem scopes_eq : other.table.scopes = decls.table.scopes := by rw [h.eq_with]

/-- What is read off a declaration without its initialiser is the same in both files. -/
theorem view_entry {α : Type} (decl : Nat) (f : Entry → α)
    (blind : ∀ entry init, f { entry with initializer := init } = f entry) :
    (other.table.entry? decl).map f = (decls.table.entry? decl).map f := by
  rw [ScopeTable.entry?, ScopeTable.entry?]
  rcases optionRel_cases (h.entries decl) with ⟨left, right⟩ | ⟨entry, entry', left, right, same⟩
  · rw [left, right]
  · rw [left, right]
    exact congrArg some (same.view f (blind entry))

theorem visibleIn_eq (scope : Scope) (name : String) (pos : Nat) :
    other.table.visibleIn scope name pos = decls.table.visibleIn scope name pos := by
  refine List.filter_congr fun decl _ => ?_
  have seen := h.view_entry decl (fun entry => entry.binds name && entry.isVisibleAt pos)
    fun _ _ => rfl
  cases left : decls.table.entry? decl <;> cases right : other.table.entry? decl <;>
    simp_all

theorem later_eq : other.table.later = decls.table.later := by
  have seen (decl : Nat) : other.table.visibleFrom decl = decls.table.visibleFrom decl := by
    rw [ScopeTable.visibleFrom, h.view_entry decl Entry.visibleFrom fun _ _ => rfl]
    rfl
  funext a b
  rw [ScopeTable.later, ScopeTable.later, seen a, seen b]

theorem latest?_eq (list : List Nat) : other.table.latest? list = decls.table.latest? list := by
  cases list with
  | nil => rfl
  | cons decl rest => rw [ScopeTable.latest?, ScopeTable.latest?, h.later_eq]

theorem scope?_eq (scope : Option Nat) : other.table.scope? scope = decls.table.scope? scope := by
  rw [ScopeTable.scope?, ScopeTable.scope?, h.scopes_eq]

theorem lookup_eq (name : String) (pos : Nat) (scope : Option Nat) :
    other.table.lookup name pos scope = decls.table.lookup name pos scope := by
  rw [ScopeTable.lookup, ScopeTable.lookup]
  generalize Limits.treeWalk + 1 = steps
  induction steps generalizing scope with
  | zero => rfl
  | succ steps ih =>
    rw [ScopeTable.lookupWithin, ScopeTable.lookupWithin, h.scope?_eq]
    simp only [h.visibleIn_eq, h.latest?_eq, ih]

theorem scopeAt_eq (pos : Nat) : other.table.scopeAt pos = decls.table.scopeAt pos := by
  have down (steps current : Nat) :
      other.table.descend pos steps current = decls.table.descend pos steps current := by
    induction steps generalizing current with
    | zero => rfl
    | succ steps ih => simp only [ScopeTable.descend, h.scopes_eq, ih]
  simp only [ScopeTable.scopeAt, h.scopes_eq, down]

theorem methodOwner?_eq (scope : Option Nat) :
    Snapshot.methodOwner? other scope = Snapshot.methodOwner? decls scope := by
  rw [Snapshot.methodOwner?, Snapshot.methodOwner?, h.scopes_eq]
  generalize decls.table.scopes.size = steps
  induction steps generalizing scope with
  | zero => rfl
  | succ steps ih => simp only [Snapshot.methodOwnerWithin, h.scope?_eq, h.function?_eq, ih]

end FileDecls.UpToOverridden

theorem IndexedFile.UpToOverridden.refl (file : IndexedFile) : file.UpToOverridden file :=
  ⟨rfl, .refl file.decls⟩

/-! ## In a snapshot -/

namespace Snapshot.UpToOverridden

theorem refl (snapshot : Snapshot) : snapshot.UpToOverridden snapshot :=
  ⟨rfl, List.forall₂_same.mpr fun file _ => .refl file,
    fun _ => optionRel_refl IndexedFile.UpToOverridden.refl _⟩

variable {before after : Snapshot} (h : before.UpToOverridden after)
include h

/-- A file is in both snapshots or in neither. -/
theorem file?_cases (file : FileId) :
    before.file? file = none ∧ after.file? file = none ∨
      ∃ found found', before.file? file = some found ∧ after.file? file = some found' ∧
        found.UpToOverridden found' := optionRel_cases (h.byFile file)

/-- A declaration is in both snapshots or in neither. -/
theorem entry?_cases (key : DeclKey) :
    before.entry? key = none ∧ after.entry? key = none ∨
      ∃ entry entry', before.entry? key = some entry ∧ after.entry? key = some entry' ∧
        entry.UpToOverridden entry' := by
  simp only [Snapshot.entry?, decls?]
  rcases h.file?_cases key.file with ⟨left, right⟩ | ⟨found, found', left, right, same⟩
  · simp [left, right]
  · simp only [left, right]
    exact optionRel_cases (same.decls.entries key.decl)

/-- What is read off a declaration without its initialiser is the same in both snapshots. -/
theorem view_entry {α : Type} (key : DeclKey) (f : Entry → α)
    (blind : ∀ entry init, f { entry with initializer := init } = f entry) :
    (after.entry? key).map f = (before.entry? key).map f := by
  rcases h.entry?_cases key with ⟨left, right⟩ | ⟨entry, entry', left, right, same⟩
  · rw [left, right]
  · rw [left, right]
    exact congrArg some (same.view f (blind _))

theorem tree?_eq : after.tree? = before.tree? := by
  funext file
  rw [tree?, tree?]
  rcases h.file?_cases file with ⟨left, right⟩ | ⟨found, found', left, right, same⟩
  · rw [left, right]
  · rw [left, right, same.eq_with]
    rfl

theorem form?_eq : after.form? = before.form? := by
  funext file node
  rw [form?, form?, h.tree?_eq]

theorem startOf_eq : after.startOf = before.startOf := by
  funext file node
  rw [startOf, startOf, h.tree?_eq]

theorem generation_eq : after.generation = before.generation := by
  funext file
  rw [generation, generation]
  rcases h.file?_cases file with ⟨left, right⟩ | ⟨found, found', left, right, same⟩
  · rw [left, right]
  · rw [left, right, same.eq_with]
    rfl

theorem classDecls_eq : after.classDecls = before.classDecls := by
  rw [h.eq_with]
  rfl

theorem aliasDecls_eq : after.aliasDecls = before.aliasDecls := by
  rw [h.eq_with]
  rfl

theorem globalDecls_eq : after.globalDecls = before.globalDecls := by
  rw [h.eq_with]
  rfl

theorem isClass_eq : after.isClass = before.isClass := by
  rw [h.eq_with]
  rfl

theorem globalMembers_eq : after.globalMembers = before.globalMembers := by
  rw [h.eq_with]
  rfl

theorem supertypes_eq : after.supertypes = before.supertypes := by
  funext name
  rw [supertypes, supertypes, h.classDecls_eq]
  congr 1
  funext supers key
  rcases h.entry?_cases key with ⟨left, right⟩ | ⟨entry, entry', left, right, same⟩
  · rw [left, right]
  · rw [left, right, same.eq_with]

theorem classMembers_eq : after.classMembers = before.classMembers := by
  have holds (name : String) : after.globalHoldsClass name = before.globalHoldsClass name := by
    rw [globalHoldsClass, globalHoldsClass, h.globalDecls_eq]
    congr 1
    funext key
    rcases h.entry?_cases key with ⟨left, right⟩ | ⟨entry, entry', left, right, same⟩
    · rw [left, right]
    · rw [left, right, same.eq_with]
  have attached : after.attachedToClass = before.attachedToClass := by rw [h.eq_with]
  funext name
  rw [classMembers, classMembers, holds, attached, h.globalMembers_eq]

theorem tableMembers_eq : after.tableMembers = before.tableMembers := by
  funext table
  rw [tableMembers, tableMembers]
  rcases h.file?_cases table.file with ⟨left, right⟩ | ⟨found, found', left, right, same⟩
  · rw [left, right]
  · simp only [left, right, IndexedFile.keys, same.decls.memberDecls_eq]
    rw [same.eq_with]

theorem classChain_eq : after.classChain = before.classChain := by
  funext name
  rw [classChain, classChain, h.supertypes_eq]

theorem isNamed_eq : after.isNamed = before.isNamed := by
  funext name key
  rw [isNamed, isNamed]
  rcases h.entry?_cases key with ⟨left, right⟩ | ⟨entry, entry', left, right, same⟩
  · rw [left, right]
  · rw [left, right, same.eq_with]

theorem resolveClassMember_eq : after.resolveClassMember = before.resolveClassMember := by
  funext className member
  simp only [resolveClassMember, named, h.classChain_eq, h.classMembers_eq, h.isNamed_eq]

theorem resolveMember_eq : after.resolveMember = before.resolveMember := by
  funext file owner member
  cases owner <;>
    simp only [resolveMember, named, ownerMembers, h.resolveClassMember_eq, h.globalMembers_eq,
      h.tableMembers_eq, h.isNamed_eq]

theorem resolveName_eq : after.resolveName = before.resolveName := by
  funext file name pos
  simp only [resolveName, decls?]
  rcases h.file?_cases file with ⟨left, right⟩ | ⟨found, found', left, right, same⟩
  · simp only [left, right, Option.map_none]
  · simp only [left, right, Option.map_some, same.decls.scopeAt_eq, same.decls.lookup_eq,
      same.decls.methodOwner?_eq, h.resolveMember_eq, h.globalDecls_eq]

end Snapshot.UpToOverridden

/-! ## Snapshots of files -/

/-- The declaration without the initialiser that its documented type overrides. -/
def Entry.withoutOverridden (entry : Entry) : Entry :=
  if entry.declared.isSome then { entry with initializer := none } else entry

theorem Entry.upToOverridden_withoutOverridden (entry : Entry) :
    entry.UpToOverridden entry.withoutOverridden := by
  rw [withoutOverridden]
  split
  · rename_i documented
    exact ⟨rfl, fun undocumented => by simp [undocumented] at documented⟩
  · exact .refl entry

/-- The file without overridden initialisers. -/
def IndexedFile.withoutOverridden (file : IndexedFile) : IndexedFile :=
  { file with
    decls := { file.decls with
      table := { file.decls.table with
        entries := file.decls.table.entries.map Entry.withoutOverridden } } }

theorem IndexedFile.upToOverridden_withoutOverridden (file : IndexedFile) :
    file.UpToOverridden file.withoutOverridden := by
  refine ⟨rfl, rfl, fun decl => ?_⟩
  have found : file.withoutOverridden.decls.table.entries[decl]?
      = (file.decls.table.entries[decl]?).map Entry.withoutOverridden := Array.getElem?_map
  rw [found]
  cases file.decls.table.entries[decl]? with
  | none => exact .none
  | some entry => exact .some entry.upToOverridden_withoutOverridden

/-- A table by something other than initialisers is the same for both files. -/
theorem IndexedFile.UpToOverridden.keyed_eq {file other : IndexedFile} {κ : Type}
    (h : file.UpToOverridden other) (key? : Entry → Option κ)
    (blind : ∀ entry init, key? { entry with initializer := init } = key? entry) :
    other.keyed key? = file.keyed key? := by
  have keyed (entries : Array Entry) : FileDecls.keyed key? entries
      = (entries.toList.map key?).zipIdx.filterMap
          fun pair => pair.1.map fun key => (key, pair.2) := by
    rw [FileDecls.keyed, List.zipIdx_map, List.filterMap_map]
    rfl
  have keys : other.decls.table.entries.toList.map key?
      = file.decls.table.entries.toList.map key? := by
    refine List.ext_getElem? fun decl => ?_
    rw [List.getElem?_map, List.getElem?_map, Array.getElem?_toList, Array.getElem?_toList]
    exact h.decls.view_entry decl key? blind
  have number : other.file = file.file := by rw [h.eq_with]
  rw [IndexedFile.keyed, IndexedFile.keyed, keyed, keyed, keys, number]

namespace Snapshot

variable {files others : List IndexedFile}
  (same : List.Forall₂ IndexedFile.UpToOverridden files others)
include same

theorem find?_upToOverridden (file : FileId) :
    Option.Rel IndexedFile.UpToOverridden (files.find? fun indexed => indexed.file == file)
      (others.find? fun indexed => indexed.file == file) := by
  induction same with
  | nil => exact .none
  | cons head _ ih =>
    have number : _ = _ := congrArg IndexedFile.file head.eq_with
    simp only [List.find?_cons, number]
    split
    · exact .some head
    · exact ih

theorem distinct_of_upToOverridden (distinct : files.Pairwise fun a b => a.file ≠ b.file) :
    others.Pairwise fun a b => a.file ≠ b.file := by
  have numbers : others.map IndexedFile.file = files.map IndexedFile.file := by
    induction same with
    | nil => rfl
    | cons head _ ih =>
      rw [List.map_cons, List.map_cons, ih distinct.of_cons, head.eq_with]
  rw [← List.pairwise_map (R := (· ≠ ·)), numbers, List.pairwise_map]
  exact distinct

/-- Snapshots of files that are the same up to overridden initialisers are so, too. -/
theorem upToOverridden_ofFiles (distinct : files.Pairwise fun a b => a.file ≠ b.file) :
    (ofFiles files).UpToOverridden (ofFiles others) := by
  have table (key? : Entry → Option String)
      (blind : ∀ entry init, key? { entry with initializer := init } = key? entry) :
      others.flatMap (fun file => file.keyed key?) = files.flatMap fun file => file.keyed key? := by
    induction same with
    | nil => rfl
    | cons head _ ih =>
      rw [List.flatMap_cons, List.flatMap_cons, ih distinct.of_cons, head.keyed_eq key? blind]
  refine ⟨?_, same, fun file => ?_⟩
  · simp only [ofFiles]
    rw [table _ fun _ _ => rfl, table _ fun _ _ => rfl, table _ fun _ _ => rfl,
      table _ fun _ _ => rfl, table _ fun _ _ => rfl]
  · have distinct' := distinct_of_upToOverridden same distinct
    have found := find?_upToOverridden same file
    rw [← file?_ofFiles distinct, ← file?_ofFiles distinct'] at found
    exact found

end Snapshot

end LuaTyping
