import LuaTyping.Proofs.Decl.Snapshot
import LuaTyping.Proofs.Infer.Dependencies
import Mathlib.Data.Finset.Card
import Mathlib.Order.Bounds.Basic

/-!
# What a change invalidates

The files that a change affects are described without the search that finds them: they are the least
set that holds the changed file and all files that have looked up one of the names, and with a file
all that depend on it. Both directions matter. A file that is missing keeps stale types, and a file
too many loses types that are still right.

The search goes along the recorded dependencies backwards, from a file to those that depend on it,
and files may depend on each other in circles. What it keeps to is that the dependents of every file
that is found and no longer pending are found (`Search.Explored`). Looking at one more file keeps
this, so at the end, when nothing is pending, nothing is missing; and a file is found only where
every set of this kind has it.
-/

set_option autoImplicit false

namespace LuaTyping.Cache

/-! ## The search -/

namespace Search

variable {dependents : ListTable FileId FileId} {search : Search} {file other : FileId}

theorem mem_found_add : other ∈ (search.add file).found ↔ other ∈ search.found ∨ other = file := by
  rw [add]
  split
  · rename_i known
    constructor
    · exact .inl
    · rintro (mem | rfl)
      · exact mem
      · exact known
  · rw [Std.HashSet.mem_insert, beq_iff_eq, or_comm, eq_comm]

theorem mem_pending_add :
    other ∈ (search.add file).pending ↔
      other ∈ search.pending ∨ other = file ∧ file ∉ search.found := by
  rw [add]
  split
  · rename_i known
    simp [Std.HashSet.contains_iff_mem.mp known]
  · rename_i new
    have new : file ∉ search.found := fun mem => new (Std.HashSet.contains_iff_mem.mpr mem)
    simp [new]

theorem mem_found_addAll {files : List FileId} :
    other ∈ (search.addAll files).found ↔ other ∈ search.found ∨ other ∈ files := by
  induction files generalizing search with
  | nil => simp [addAll]
  | cons file rest ih =>
    show other ∈ ((search.add file).addAll rest).found ↔ _
    rw [ih, mem_found_add, List.mem_cons, or_assoc]

theorem mem_pending_addAll {files : List FileId} :
    other ∈ (search.addAll files).pending ↔
      other ∈ search.pending ∨ other ∈ files ∧ other ∉ search.found := by
  induction files generalizing search with
  | nil => simp [addAll]
  | cons file rest ih =>
    show other ∈ ((search.add file).addAll rest).pending ↔ _
    rw [ih, mem_pending_add, mem_found_add, List.mem_cons]
    grind

/-- Files that are pending are found, and so are the dependents of files that are found and no
longer pending. -/
structure Explored (dependents : ListTable FileId FileId) (search : Search) : Prop where
  found : ∀ file ∈ search.pending, file ∈ search.found
  explored : ∀ file ∈ search.found, file ∉ search.pending → ∀ dependent ∈ dependents.list file,
    dependent ∈ search.found

/-- Taking files in, among them the dependents that were missing. -/
theorem explored_addAll {files : List FileId} (found : ∀ file ∈ search.pending, file ∈ search.found)
    (explored : ∀ file ∈ search.found, file ∉ search.pending → ∀ dependent ∈ dependents.list file,
      dependent ∈ search.found ∨ dependent ∈ files) :
    (search.addAll files).Explored dependents where
  found other pending := by
    rw [mem_found_addAll]
    rcases mem_pending_addAll.mp pending with earlier | ⟨added, -⟩
    · exact .inl (found other earlier)
    · exact .inr added
  explored other mem done dependent listed := by
    rw [mem_pending_addAll, not_or, not_and_not_right] at done
    have earlier : other ∈ search.found := (mem_found_addAll.mp mem).elim id done.2
    exact mem_found_addAll.mpr (explored other earlier done.1 dependent listed)

/-- Looking at the dependents of the first file that is pending. -/
theorem Explored.next {found : Std.HashSet FileId} {pending : List FileId}
    (h : Explored dependents ⟨found, file :: pending⟩) :
    (Search.addAll ⟨found, pending⟩ (dependents.list file)).Explored dependents := by
  refine explored_addAll (fun other mem => h.found other (List.mem_cons_of_mem file mem))
    fun other mem done dependent listed => ?_
  by_cases same : other = file
  · exact .inr (same ▸ listed)
  · have done : other ∉ file :: pending := by
      rw [List.mem_cons, not_or]
      exact ⟨same, done⟩
    exact .inl (h.explored other mem done dependent listed)

/-- A search finds what it began with and with a file its dependents, and nothing that some set of
this kind does not have. -/
theorem isLeast_run (h : search.Explored dependents) :
    IsLeast {files : Set FileId | (∀ file ∈ search.found, file ∈ files) ∧
        ∀ file ∈ files, ∀ dependent ∈ dependents.list file, dependent ∈ files}
      {file | file ∈ search.run dependents} := by
  induction search using run.induct dependents with
  | case1 found =>
    rw [run]
    refine ⟨⟨fun _ mem => mem, fun file mem dependent listed => ?_⟩, fun _ closed => closed.1⟩
    exact h.explored file mem List.not_mem_nil dependent listed
  | case2 found file pending ih =>
    rw [run]
    obtain ⟨⟨began, closed⟩, least⟩ := ih h.next
    refine ⟨⟨fun other mem => began other (mem_found_addAll.mpr (.inl mem)), closed⟩, ?_⟩
    rintro files ⟨within, closed'⟩
    refine least ⟨fun other mem => ?_, closed'⟩
    rcases mem_found_addAll.mp mem with earlier | listed
    · exact within other earlier
    · exact closed' file (within file (h.found file List.mem_cons_self)) other listed

end Search

/-! ## Affected files -/

variable {cache : Cache} {file dependent dependency : FileId} {names : List String}

/-- The reversed table lists for a file the files that depend on it. -/
theorem mem_dependents :
    dependent ∈ cache.dependents.list dependency ↔ cache.DependsOn dependent dependency := by
  rw [dependents, ListTable.list_ofPairs, DependsOn, Std.HashMap.getD_eq_getD_getElem?]
  simp only [List.mem_map, List.mem_filter, List.mem_flatMap, Prod.exists,
    Std.HashMap.mem_toList_iff_getElem?_eq_some, Std.HashSet.mem_toList, Prod.mk.injEq, beq_iff_eq]
  constructor
  · rintro ⟨_, _, ⟨⟨_, read, recorded, _, mem, rfl, rfl⟩, rfl⟩, rfl⟩
    rwa [recorded]
  · intro mem
    cases recorded : cache.fileDeps[dependent]? with
    | none => simp [recorded] at mem
    | some read =>
      rw [recorded] at mem
      exact ⟨_, _, ⟨⟨dependent, read, recorded, dependency, mem, rfl, rfl⟩, rfl⟩, rfl⟩

theorem mem_readersOf {reader : FileId} :
    reader ∈ cache.readersOf names ↔ ∃ name ∈ names, cache.Reads reader name := by
  simp only [readersOf, Reads, Std.HashMap.getD_eq_getD_getElem?, List.mem_map, List.mem_filter,
    Prod.exists, Std.HashMap.mem_toList_iff_getElem?_eq_some, List.any_eq_true]
  constructor
  · rintro ⟨_, read, ⟨recorded, name, mem, reads⟩, rfl⟩
    refine ⟨name, mem, ?_⟩
    rwa [recorded]
  · rintro ⟨name, mem, reads⟩
    cases recorded : cache.nameDeps[reader]? with
    | none => simp [recorded] at reads
    | some read =>
      rw [recorded] at reads
      exact ⟨reader, read, ⟨recorded, name, mem, reads⟩, rfl⟩

/-- The set holds the changed file and the readers of the names, and with a file its dependents. -/
structure Closed (cache : Cache) (file : FileId) (names : List String) (files : Set FileId) :
    Prop where
  changed : file ∈ files
  reader : ∀ other name, name ∈ names → cache.Reads other name → other ∈ files
  dependent : ∀ other dependency, cache.DependsOn other dependency → dependency ∈ files →
    other ∈ files

theorem closed_iff {files : Set FileId} :
    cache.Closed file names files ↔
      (∀ other ∈ ((Search.start.add file).addAll (cache.readersOf names)).found, other ∈ files) ∧
        ∀ other ∈ files, ∀ dependent ∈ cache.dependents.list other, dependent ∈ files := by
  simp only [Search.mem_found_addAll, Search.mem_found_add, mem_readersOf, mem_dependents]
  constructor
  · rintro ⟨changed, reader, dependent⟩
    refine ⟨?_, fun other mem user depends => dependent user other depends mem⟩
    rintro other ((mem | rfl) | ⟨name, mem, reads⟩)
    · simp [Search.start] at mem
    · exact changed
    · exact reader other name mem reads
  · rintro ⟨began, dependent⟩
    exact ⟨began file (.inl (.inr rfl)), fun other name mem reads => began other (.inr ⟨name, mem,
      reads⟩), fun other dependency depends mem => dependent dependency mem other depends⟩

/-- The affected files are the least closed set. -/
theorem isLeast_affectedBy (cache : Cache) (file : FileId) (names : List String) :
    IsLeast {files : Set FileId | cache.Closed file names files}
      {other | other ∈ cache.affectedBy file names} := by
  -- nothing is found before the first file is taken in
  have explored : (Search.start.addAll (file :: cache.readersOf names)).Explored cache.dependents :=
    Search.explored_addAll (by simp [Search.start]) (by simp [Search.start])
  simp only [closed_iff]
  exact Search.isLeast_run explored

theorem closed_affectedBy (cache : Cache) (file : FileId) (names : List String) :
    cache.Closed file names {other | other ∈ cache.affectedBy file names} :=
  (isLeast_affectedBy cache file names).1

/-- What is still kept after a change was kept before, and its file is not affected. -/
theorem of_invalidate_entry {key : CacheKey} {ty : Ty}
    (h : (cache.invalidate file names).2.entries[key]? = some ty) :
    cache.entries[key]? = some ty ∧ key.decl.file ∉ cache.affectedBy file names := by
  simp only [invalidate, Std.HashMap.getElem?_filter', Option.filter_eq_some_iff] at h
  exact ⟨h.1, by simpa using h.2⟩

/-- Without anything recorded, only the changed file is affected. -/
theorem eq_of_mem_affectedBy (fileDeps : cache.fileDeps = ∅) (nameDeps : cache.nameDeps = ∅)
    {other : FileId} (mem : other ∈ cache.affectedBy file names) : other = file := by
  have closed : cache.Closed file names {file} := by
    refine ⟨rfl, fun other name _ reads => ?_, fun other dependency depends _ => ?_⟩
    · simp [Reads, nameDeps] at reads
    · simp [DependsOn, fileDeps] at depends
  exact (isLeast_affectedBy cache file names).2 closed mem

/-! ## What is left -/

/-- The second cache is the first without the types and the records of the files. -/
structure Drops (files : Finset FileId) (before after : Cache) : Prop where
  entries : ∀ key : CacheKey,
    after.entries[key]? = if key.decl.file ∈ files then none else before.entries[key]?
  fileDeps : ∀ other : FileId,
    after.fileDeps[other]? = if other ∈ files then none else before.fileDeps[other]?
  nameDeps : ∀ other : FileId,
    after.nameDeps[other]? = if other ∈ files then none else before.nameDeps[other]?
  hits : after.hits = before.hits
  misses : after.misses = before.misses

theorem getElem?_filter_contains {κ β : Type} [BEq κ] [Hashable κ] [LawfulBEq κ] [LawfulHashable κ]
    (table : Std.HashMap κ β) (owner : κ → FileId) (files : Std.HashSet FileId) (key : κ) :
    (table.filter fun key _ => !files.contains (owner key))[key]?
      = if owner key ∈ files.toList.toFinset then none else table[key]? := by
  rw [Std.HashMap.getElem?_filter']
  split <;> cases table[key]? <;> simp_all

theorem drops_invalidate (cache : Cache) (file : FileId) (names : List String) :
    Drops (cache.affectedBy file names).toList.toFinset cache (cache.invalidate file names).2 where
  entries := getElem?_filter_contains cache.entries (fun key => key.decl.file) _
  fileDeps := getElem?_filter_contains cache.fileDeps id _
  nameDeps := getElem?_filter_contains cache.nameDeps id _
  hits := rfl
  misses := rfl

/-- A change of a file and of some names drops exactly the types and the records of the files in the
least closed set, and gives back how many files that are. -/
theorem invalidate_leastClosed (cache : Cache) (file : FileId) (names : List String) :
    ∃ affected : Finset FileId,
      IsLeast {files : Set FileId | cache.Closed file names files} ↑affected ∧
      (cache.invalidate file names).1 = affected.card ∧
      Drops affected cache (cache.invalidate file names).2 := by
  refine ⟨(cache.affectedBy file names).toList.toFinset, ?_, ?_, drops_invalidate cache file names⟩
  · simpa using isLeast_affectedBy cache file names
  · have once : (cache.affectedBy file names).toList.Nodup :=
      (cache.affectedBy file names).distinct_toList.imp fun different => by simpa using different
    rw [List.toFinset_card_of_nodup once, Std.HashSet.length_toList]
    rfl

end LuaTyping.Cache
