import LuaTyping.Decl.Entry
import LuaTyping.Decl.ListTable
import LuaTyping.Ty.Bindings
import Std.Data.HashSet

/-!
# The cache of inferred types

Types of declarations are kept between queries. A kept type is found again only for the same
declaration in the same generation of its file and under bindings with the same fingerprint, so a
changed file never sees types of its earlier versions.

Other files' types may depend on a changed file. While a type is inferred, the files whose
declarations it reads and the names it looks up are recorded for the file it belongs to. A change
then drops the types of every file that depends on it: the file itself, the files that looked up
one of the changed names, and whatever depends on those in turn. They are found by a search that
starts from the file and the readers of the names and goes on from each file that it finds. Files
may depend on each other in circles; a file is taken in only once.
-/

set_option autoImplicit false

namespace LuaTyping

/-- What a kept type is found by. -/
structure CacheKey where
  decl : DeclKey
  generation : Nat
  fingerprint : Fingerprint
deriving BEq, Inhabited

/-- Keys that agree in declaration and generation share a bucket; the fingerprint decides there. -/
instance : Hashable CacheKey := ⟨fun key => mixHash (hash key.decl) (hash key.generation)⟩

/-- The types kept so far and what they depend on. -/
structure Cache where
  entries : Std.HashMap CacheKey Ty
  /-- For a file, the other files whose declarations its types were read from. -/
  fileDeps : Std.HashMap FileId (Std.HashSet FileId)
  /-- For a file, the names that were looked up for its types. -/
  nameDeps : Std.HashMap FileId (Std.HashSet String)
  hits : Nat
  misses : Nat
deriving Inhabited

namespace Cache

def empty : Cache := ⟨∅, ∅, ∅, 0, 0⟩

/-- The number of kept types. -/
def size (cache : Cache) : Nat := cache.entries.size

def isEmpty (cache : Cache) : Bool := cache.entries.isEmpty

/-- The type kept under a key. The question is counted. -/
def get (cache : Cache) (key : CacheKey) : Option Ty × Cache :=
  match cache.entries[key]? with
  | some ty => (some ty, { cache with hits := cache.hits + 1 })
  | none => (none, { cache with misses := cache.misses + 1 })

/-- Keeps a type unless one is kept under the key, and gives the one that is kept then. -/
def insert (cache : Cache) (key : CacheKey) (ty : Ty) : Ty × Cache :=
  match cache.entries[key]? with
  | some kept => (kept, cache)
  | none => (ty, { cache with entries := cache.entries.insert key ty })

/-- Records that types of `dependent` read declarations of `dependency`. -/
def recordFile (cache : Cache) (dependent dependency : FileId) : Cache :=
  if dependent == dependency then cache
  else
    { cache with
      fileDeps :=
        cache.fileDeps.alter dependent fun deps => some ((deps.getD ∅).insert dependency) }

/-- Records that types of `dependent` looked up `name`. -/
def recordName (cache : Cache) (dependent : FileId) (name : String) : Cache :=
  { cache with
    nameDeps := cache.nameDeps.alter dependent fun names => some ((names.getD ∅).insert name) }

/-- The files that looked up one of the names. -/
def readersOf (cache : Cache) (names : List String) : List FileId :=
  (cache.nameDeps.toList.filter fun entry => names.any fun name => entry.2.contains name).map
    Prod.fst

/-- For every file that types were read from, the files whose types those are. -/
def dependents (cache : Cache) : ListTable FileId FileId :=
  .ofPairs (cache.fileDeps.toList.flatMap fun (dependent, read) =>
    read.toList.map fun dependency => (dependency, dependent))

/-- A search for the files that a change reaches. -/
structure Search where
  /-- The files found so far. -/
  found : Std.HashSet FileId
  /-- Those of them whose dependents are still to be looked at, first come first. -/
  pending : List FileId

namespace Search

/-- The search before anything is found. -/
def start : Search := ⟨∅, []⟩

/-- Takes a file in, unless it was found before. -/
def add (search : Search) (file : FileId) : Search :=
  if search.found.contains file then search
  else ⟨search.found.insert file, search.pending ++ [file]⟩

/-- Takes files in, one after the other. -/
def addAll (search : Search) (files : List FileId) : Search := files.foldl add search

/-- What is left to do, where only the given files can still be found: the files among them that
are not found yet, and the files that are pending. -/
def left (files : List FileId) (search : Search) : Nat :=
  (files.filter fun file => !search.found.contains file).length + search.pending.length

/-- A file that is taken in is pending instead of not found. -/
theorem left_add_le {files : List FileId} {file : FileId} (mem : file ∈ files) (search : Search) :
    (search.add file).left files ≤ search.left files := by
  rw [add]
  split
  · exact Nat.le_refl _
  · rename_i new
    have fewer : (files.filter fun other => !(search.found.insert file).contains other).length
        < (files.filter fun other => !search.found.contains other).length := by
      have split : files.filter (fun other => !(search.found.insert file).contains other)
          = (files.filter fun other => !search.found.contains other).filter (file != ·) := by
        rw [List.filter_filter]
        exact List.filter_congr fun other _ => by simp [bne]
      rw [split, List.length_filter_lt_length_iff_exists]
      exact ⟨file, List.mem_filter.mpr ⟨mem, by simpa using new⟩, by simp⟩
    simp only [left, List.length_append, List.length_singleton]
    omega

theorem left_addAll_le {files added : List FileId} (among : ∀ file ∈ added, file ∈ files)
    (search : Search) : (search.addAll added).left files ≤ search.left files := by
  induction added generalizing search with
  | nil => exact Nat.le_refl _
  | cons file rest ih =>
    exact Nat.le_trans (ih (fun other mem => among other (List.mem_cons_of_mem _ mem)) _)
      (left_add_le (among file List.mem_cons_self) search)

/-- Looks at the dependents of the files that are pending, until there are none. -/
def run (dependents : ListTable FileId FileId) (search : Search) : Std.HashSet FileId :=
  match search with
  | ⟨found, []⟩ => found
  | ⟨found, file :: pending⟩ =>
    run dependents (addAll ⟨found, pending⟩ (dependents.list file))
termination_by search.left dependents.values
decreasing_by
  refine Nat.lt_of_le_of_lt (left_addAll_le (fun _ => dependents.mem_values) _) ?_
  simp [left]

end Search

/-- The files that a change of `file` and of the names affects. -/
def affectedBy (cache : Cache) (file : FileId) (names : List String) : Std.HashSet FileId :=
  ((Search.start.add file).addAll (cache.readersOf names)).run cache.dependents

/-- Drops the types and the recorded dependencies of the affected files, and says how many files
those are. -/
def invalidate (cache : Cache) (file : FileId) (names : List String) : Nat × Cache :=
  let affected := cache.affectedBy file names
  (affected.size,
    { cache with
      entries := cache.entries.filter fun key _ => !affected.contains key.decl.file
      fileDeps := cache.fileDeps.filter fun file _ => !affected.contains file
      nameDeps := cache.nameDeps.filter fun file _ => !affected.contains file })

/-- Forgets all types and dependencies. The counts of questions stay. -/
def clear (cache : Cache) : Cache :=
  { cache with entries := ∅, fileDeps := ∅, nameDeps := ∅ }

end Cache

end LuaTyping
