import LuaTyping.Decl.Snapshot

/-!
# The index of a project

The index holds the current version of each file. Replacing a file gives it a new generation, larger
than any given out before. The snapshot of the current files is kept until the next change, so
asking for it again costs nothing.
-/

set_option autoImplicit false

namespace LuaTyping

/-- The current files of a project. -/
structure Index where
  /-- The files in ascending order, each once. -/
  files : List IndexedFile
  /-- The last generation given out. -/
  lastGeneration : Nat
  /-- The number of changes so far. -/
  version : Nat
  /-- A snapshot with the version it was made of. -/
  kept : Option (Nat × Snapshot)
deriving Inhabited

namespace Index

def empty : Index := ⟨[], 0, 0, none⟩

/-- The number of files. -/
def size (index : Index) : Nat := index.files.length

def file? (index : Index) (file : FileId) : Option IndexedFile :=
  index.files.find? fun indexed => indexed.file == file

/-- The generation of a file that is there. -/
def generation? (index : Index) (file : FileId) : Option Nat :=
  (index.file? file).map IndexedFile.generation

/-- Puts a file in its place in an ascending list, over an earlier version of it. -/
def place (added : IndexedFile) : List IndexedFile → List IndexedFile
  | [] => [added]
  | other :: rest =>
    if other.file == added.file then added :: rest
    else if added.file.number < other.file.number then added :: other :: rest
    else other :: place added rest

/-- Adds or replaces a file, and says which generation it has. -/
def setFile (index : Index) (file : FileId) (tree : Tree) : Nat × Index :=
  let generation := index.lastGeneration + 1
  let added : IndexedFile := { file, generation, tree, decls := FileDecls.ofTree file tree }
  (generation,
    { index with
      files := place added index.files
      lastGeneration := generation
      version := index.version + 1 })

/-- Removes a file, and says whether it was there. -/
def removeFile (index : Index) (file : FileId) : Bool × Index :=
  if (index.file? file).isSome then
    (true,
      { index with
        files := index.files.filter fun indexed => indexed.file != file
        version := index.version + 1 })
  else (false, index)

/-- The names under which other files may depend on a file; none for one that is not there. -/
def contributedNames (index : Index) (file : FileId) : List String :=
  ((index.file? file).map fun indexed => indexed.decls.contributedNames).getD []

/-- The snapshot of the current files, and the index that keeps it. -/
def snapshot (index : Index) : Snapshot × Index :=
  match index.kept with
  | some (version, snapshot) =>
    if version == index.version then (snapshot, index) else renew index
  | none => renew index
where
  /-- Makes a new snapshot and keeps it. -/
  renew (index : Index) : Snapshot × Index :=
    let snapshot := Snapshot.ofFiles index.files
    (snapshot, { index with kept := some (index.version, snapshot) })

end Index

end LuaTyping
