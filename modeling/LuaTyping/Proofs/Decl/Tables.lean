import LuaTyping.Proofs.Decl.Edit
import LuaTyping.Proofs.Decl.Tabulation

/-!
# Tables over declarations

Every table over declarations gives some of them a key, and a look-up lists those of one key. The
lists are always the same kind of thing: exactly the declarations that match, in ascending order.
This is so within a file, where declarations are numbers, and across the files of a project, where
they are ordered by file first. It also holds for the members of a class, which come from two
tables.
-/

set_option autoImplicit false

namespace LuaTyping

theorem Entry.nameIf_eq_some_iff {kind : DeclKind} {entry : Entry} {name : String} :
    entry.nameIf kind = some name ↔ entry.kind = kind ∧ entry.name = name := by
  simp [Entry.nameIf]

/-! ## Within a file -/

namespace FileDecls

variable {κ : Type}

/-- The numbers of the declarations to which `key?` gives the key. -/
def numbers [BEq κ] (key? : Entry → Option κ) (key : κ) (entries : Array Entry) : List Nat :=
  ((keyed key? entries).filter fun pair => pair.1 == key).map Prod.snd

theorem mem_keyed {key? : Entry → Option κ} {entries : Array Entry} {key : κ} {d : Nat} :
    (key, d) ∈ keyed key? entries ↔ ∃ entry, entries[d]? = some entry ∧ key? entry = some key := by
  simp only [keyed, List.mem_filterMap, Option.map_eq_some_iff, Prod.exists, Prod.mk.injEq,
    List.mk_mem_zipIdx_iff_getElem?, Array.getElem?_toList]
  grind

theorem ascending_keyed (key? : Entry → Option κ) (entries : Array Entry) :
    (keyed key? entries).Pairwise fun a b => a.2 < b.2 := by
  have positions : (entries.toList.zipIdx.map Prod.snd).Pairwise (· < ·) := by
    rw [List.zipIdx_map_snd]
    exact List.pairwise_lt_range'
  refine (List.pairwise_map.mp positions).filterMap _ ?_
  rintro ⟨a, i⟩ ⟨b, j⟩ less x is_x y is_y
  obtain ⟨_, -, rfl⟩ := Option.map_eq_some_iff.mp is_x
  obtain ⟨_, -, rfl⟩ := Option.map_eq_some_iff.mp is_y
  exact less

theorem lists_numbers [BEq κ] [LawfulBEq κ] (table : ScopeTable) (key? : Entry → Option κ)
    (key : κ) :
    table.Lists (fun entry => key? entry = some key) (numbers key? key table.entries) where
  ascending := List.pairwise_map.mpr ((ascending_keyed key? table.entries).filter _)
  mem_iff d := by
    simp only [numbers, List.mem_map, List.mem_filter, Prod.exists, exists_eq_right, beq_iff_eq,
      mem_keyed, ScopeTable.entry?]

/-- A node declares the first of the declarations that the walk records at it. -/
theorem declForNode?_ofTree (file : FileId) (tree : Tree) (node : Nat) :
    (ofTree file tree).declForNode? (some node)
      = (numbers Entry.node node (Collect.run tree).table.entries).head? :=
  Option.ext fun d => ((Collect.tabulated_run tree).byNode node d).trans
    (lists_numbers (Collect.run tree).table Entry.node node).head?_eq_some_iff.symm

end FileDecls

/-! ## Across the files of a project -/

namespace DeclKey

/-- The first stands in an earlier file, or earlier in the same one. -/
def Before (a b : DeclKey) : Prop :=
  a.file.number < b.file.number ∨ a.file = b.file ∧ a.decl < b.decl

theorem le_iff {a b : DeclKey} : DeclKey.le a b ↔ a.Before b ∨ a = b := by
  obtain ⟨⟨f⟩, d⟩ := a
  obtain ⟨⟨f'⟩, d'⟩ := b
  simp only [DeclKey.le, Before, Bool.or_eq_true, decide_eq_true_eq, Bool.and_eq_true, beq_iff_eq,
    FileId.mk.injEq, DeclKey.mk.injEq]
  omega

theorem Before.ne {a b : DeclKey} (h : a.Before b) : a ≠ b := by
  rintro rfl
  rcases h with h | ⟨-, h⟩ <;> exact Nat.lt_irrefl _ h

theorem le_trans (a b c : DeclKey) (first : DeclKey.le a b) (second : DeclKey.le b c) :
    DeclKey.le a c := by
  simp only [DeclKey.le, Bool.or_eq_true, decide_eq_true_eq, Bool.and_eq_true, beq_iff_eq] at *
  omega

theorem le_total (a b : DeclKey) : DeclKey.le a b || DeclKey.le b a := by
  simp only [DeclKey.le, Bool.or_eq_true, decide_eq_true_eq, Bool.and_eq_true, beq_iff_eq]
  omega

end DeclKey

namespace Snapshot

/-- The list holds exactly the matching declarations of the project, in ascending order. -/
structure Lists (snapshot : Snapshot) (matching : Entry → Prop) (list : List DeclKey) : Prop where
  ascending : list.Pairwise DeclKey.Before
  mem_iff : ∀ key, key ∈ list ↔ ∃ entry, snapshot.entry? key = some entry ∧ matching entry

namespace Lists

variable {snapshot : Snapshot} {matching other : Entry → Prop} {list list' : List DeclKey}

theorem congr (lists : snapshot.Lists matching list)
    (same : ∀ entry, matching entry ↔ other entry) : snapshot.Lists other list :=
  ⟨lists.ascending, fun key => (lists.mem_iff key).trans (by simp only [same])⟩

theorem nodup (lists : snapshot.Lists matching list) : list.Nodup :=
  lists.ascending.imp DeclKey.Before.ne

/-- Two lists without a common declaration, put together and sorted. -/
theorem merge (lists : snapshot.Lists matching list) (lists' : snapshot.Lists other list')
    (apart : ∀ entry, matching entry → ¬ other entry) :
    snapshot.Lists (fun entry => matching entry ∨ other entry)
      ((list ++ list').mergeSort DeclKey.le) where
  ascending := by
    have disjoint : ∀ key ∈ list, ∀ key' ∈ list', key ≠ key' := by
      rintro key mem _ mem' rfl
      obtain ⟨entry, found, matches_⟩ := (lists.mem_iff key).mp mem
      obtain ⟨entry', found', matches'⟩ := (lists'.mem_iff key).mp mem'
      cases found.symm.trans found'
      exact apart entry matches_ matches'
    have once : ((list ++ list').mergeSort DeclKey.le).Nodup :=
      (List.mergeSort_perm _ _).nodup_iff.mpr
        (List.nodup_append.mpr ⟨lists.nodup, lists'.nodup, disjoint⟩)
    have sorted : ((list ++ list').mergeSort DeclKey.le).Pairwise fun a b => DeclKey.le a b :=
      List.pairwise_mergeSort DeclKey.le_trans DeclKey.le_total _
    exact (sorted.and once).imp fun h => (DeclKey.le_iff.mp h.1).resolve_right h.2
  mem_iff key := by
    rw [List.mem_mergeSort, List.mem_append, lists.mem_iff, lists'.mem_iff, ← exists_or]
    simp only [and_or_left]

end Lists

variable {files : List IndexedFile}

/-- Files that differ in number are found with their declarations. -/
theorem entry?_eq_some_iff (distinct : files.Pairwise fun a b => a.file ≠ b.file) {key : DeclKey}
    {entry : Entry} :
    Snapshot.entry? (ofFiles files) key = some entry ↔
      ∃ indexed ∈ files, indexed.file = key.file ∧ indexed.decls.entry? key.decl = some entry := by
  have find_iff {indexed : IndexedFile} :
      files.find? (fun other => other.file == key.file) = some indexed ↔
        indexed ∈ files ∧ indexed.file = key.file := by
    constructor
    · intro found
      exact ⟨List.mem_of_find?_eq_some found, by simpa using List.find?_some found⟩
    · rintro ⟨mem, same⟩
      exact same ▸ find?_of_mem distinct mem
  simp only [Snapshot.entry?, decls?, file?_ofFiles distinct, Option.bind_eq_some_iff,
    Option.map_eq_some_iff, find_iff]
  grind

theorem listed_eq_map (key? : Entry → Option String) (name : String) (file : IndexedFile) :
    file.listed key? name
      = (FileDecls.numbers key? name file.decls.table.entries).map fun d => ⟨file.file, d⟩ := by
  simp only [IndexedFile.listed, IndexedFile.keyed, FileDecls.numbers, List.filter_map,
    List.map_map]
  rfl

/-- A look-up that goes through the files in order lists the declarations of its name. -/
theorem lists_flatMap (ascending : files.Pairwise fun a b => a.file.number < b.file.number)
    (key? : Entry → Option String) (name : String) :
    (ofFiles files).Lists (fun entry => key? entry = some name)
      (files.flatMap (IndexedFile.listed key? name)) where
  ascending := by
    have of_file (file : IndexedFile) : (file.listed key? name).Pairwise DeclKey.Before := by
      rw [listed_eq_map, List.pairwise_map]
      have numbers := FileDecls.lists_numbers file.decls.table key? name
      exact numbers.ascending.imp fun less => .inr ⟨rfl, less⟩
    refine List.pairwise_flatMap.mpr ⟨fun file _ => of_file file, ascending.imp ?_⟩
    intro a b less key mem key' mem'
    left
    rwa [(IndexedFile.mem_listed mem).1, (IndexedFile.mem_listed mem').1]
  mem_iff key := by
    have distinct : files.Pairwise fun a b => a.file ≠ b.file :=
      ascending.imp fun less same => by simp [same] at less
    have of_file {file : IndexedFile} : key ∈ file.listed key? name ↔
        file.file = key.file ∧ ∃ entry, file.decls.entry? key.decl = some entry ∧
          key? entry = some name := by
      obtain ⟨f, d⟩ := key
      have numbers := (FileDecls.lists_numbers file.decls.table key? name).mem_iff d
      simp only [listed_eq_map, List.mem_map, DeclKey.mk.injEq, FileDecls.entry?, ← numbers]
      grind
    simp only [List.mem_flatMap, of_file, entry?_eq_some_iff distinct]
    grind

section Lookups

variable (ascending : files.Pairwise fun a b => a.file.number < b.file.number) (name : String)
include ascending

theorem lists_classDecls : (ofFiles files).Lists
    (fun entry => entry.kind = .classDecl ∧ entry.name = name)
    ((ofFiles files).classDecls name) := by
  rw [classDecls_ofFiles]
  exact (lists_flatMap ascending _ name).congr fun _ => Entry.nameIf_eq_some_iff

theorem lists_aliasDecls : (ofFiles files).Lists
    (fun entry => entry.kind = .aliasDecl ∧ entry.name = name)
    ((ofFiles files).aliasDecls name) := by
  rw [aliasDecls_ofFiles]
  exact (lists_flatMap ascending _ name).congr fun _ => Entry.nameIf_eq_some_iff

theorem lists_globalDecls : (ofFiles files).Lists
    (fun entry => entry.kind = .global ∧ entry.name = name)
    ((ofFiles files).globalDecls name) := by
  rw [globalDecls_ofFiles]
  exact (lists_flatMap ascending _ name).congr fun _ => Entry.nameIf_eq_some_iff

theorem lists_attachedToClass : (ofFiles files).Lists
    (fun entry => entry.memberOwner? = some (.ofClass name))
    ((ofFiles files).attachedToClass.list name) := by
  rw [attachedToClass_ofFiles]
  refine (lists_flatMap ascending _ name).congr fun entry => ?_
  rw [Entry.ownerClass?]
  split <;> simp_all

theorem lists_globalMembers : (ofFiles files).Lists
    (fun entry => entry.memberOwner? = some (.ofGlobal name))
    ((ofFiles files).globalMembers name) := by
  rw [globalMembers_ofFiles]
  refine (lists_flatMap ascending _ name).congr fun entry => ?_
  rw [Entry.ownerGlobal?]
  split <;> simp_all

end Lookups

/-- A global of that name holds the table of the class of the same name. -/
def HoldsClass (snapshot : Snapshot) (name : String) : Prop :=
  ∃ key entry, snapshot.entry? key = some entry ∧ entry.kind = .global ∧ entry.name = name ∧
    entry.className = some name

/-- The declaration is a member of the class: attached to it by name, or to the global of the same
name where that one holds the table of the class. -/
def IsMemberOf (snapshot : Snapshot) (name : String) (entry : Entry) : Prop :=
  entry.memberOwner? = some (.ofClass name) ∨
    snapshot.HoldsClass name ∧ entry.memberOwner? = some (.ofGlobal name)

section Members

variable (ascending : files.Pairwise fun a b => a.file.number < b.file.number) (name : String)
include ascending

theorem globalHoldsClass_iff :
    (ofFiles files).globalHoldsClass name ↔ (ofFiles files).HoldsClass name := by
  have globals := lists_globalDecls ascending name
  rw [globalHoldsClass, List.any_eq_true, HoldsClass]
  constructor
  · rintro ⟨key, mem, holds⟩
    obtain ⟨entry, found, kind, named⟩ := (globals.mem_iff key).mp mem
    rw [found] at holds
    exact ⟨key, entry, found, kind, named, by simpa using holds⟩
  · rintro ⟨key, entry, found, kind, named, className⟩
    exact ⟨key, (globals.mem_iff key).mpr ⟨entry, found, kind, named⟩, by simp [found, className]⟩

theorem lists_classMembers : (ofFiles files).Lists ((ofFiles files).IsMemberOf name)
    ((ofFiles files).classMembers name) := by
  have attached := lists_attachedToClass ascending name
  have through := lists_globalMembers ascending name
  rw [classMembers]
  by_cases holds : (ofFiles files).globalHoldsClass name
  · have held := (globalHoldsClass_iff ascending name).mp holds
    rw [if_pos holds]
    refine (attached.merge through fun entry by_name by_global => ?_).congr fun entry => ?_
    · cases by_name.symm.trans by_global
    · simp [IsMemberOf, held]
  · have free := mt (globalHoldsClass_iff ascending name).mpr holds
    rw [if_neg holds]
    exact attached.congr fun entry => by simp [IsMemberOf, free]

end Members

end Snapshot

end LuaTyping
