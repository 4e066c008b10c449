import LuaTyping.Decl.Index
import LuaTyping.Infer.Reference
import LuaTyping.OptionFile.Load
import LuaTyping.Ty.Format

/-!
# Workspaces

A workspace is a project that is edited and asked about in turn: the index of its files, the cache
of inferred types and the options of every query. An edit drops the cached types that may depend on
the old or the new version of the file.
-/

set_option autoImplicit false

namespace LuaTyping

/-- A project with its cache and options. -/
structure Workspace where
  index : Index
  cache : Cache
  options : Options
deriving Inhabited

namespace Workspace

/-- A project without files. -/
def ofOptions (options : Options) : Workspace := ⟨.empty, .empty, options⟩

/-- A project without files, with the options of an option file. -/
def ofOptionFile (files : FileSet) (path : OptionPath) : Except LoadError Workspace := do
  return ofOptions (← OptionFile.loadOptions files path)

def fileCount (workspace : Workspace) : Nat := workspace.index.size

/-- Drops the cached types that a change of `file` and of the names may affect. -/
def invalidate (workspace : Workspace) (file : FileId) (names : List String) : Nat × Workspace :=
  let (affected, cache) := workspace.cache.invalidate file names
  (affected, { workspace with cache })

/-- Adds or replaces a file, and says which generation it has. -/
def setFile (workspace : Workspace) (file : FileId) (tree : Tree) : Nat × Workspace :=
  let before := workspace.index.contributedNames file
  let (generation, index) := workspace.index.setFile file tree
  let names := dedupSorted (sortNames (before ++ index.contributedNames file))
  (generation, ({ workspace with index }.invalidate file names).2)

/-- Removes a file, and says whether it was there. -/
def removeFile (workspace : Workspace) (file : FileId) : Bool × Workspace :=
  let names := workspace.index.contributedNames file
  match workspace.index.removeFile file with
  | (true, index) => (true, ({ workspace with index }.invalidate file names).2)
  | (false, _) => (false, workspace)

/-- The snapshot of the current files. -/
def snapshot (workspace : Workspace) : Snapshot × Workspace :=
  let (snapshot, index) := workspace.index.snapshot
  (snapshot, { workspace with index })

/-- Runs a query of its own over the current files. -/
def query {α : Type} (workspace : Workspace) (cancelled : Bool)
    (body : Infer.Context → Infer.InferM α) : α × Workspace :=
  let (snapshot, workspace) := workspace.snapshot
  let ctx := Infer.Context.make snapshot workspace.options .empty cancelled
  let (answer, state) := (body ctx).run (Infer.State.start workspace.options workspace.cache)
  (answer, { workspace with cache := state.cache })

/-- The type of a node. A query that is called off before it starts knows nothing. -/
def inferType (workspace : Workspace) (file : FileId) (node : NodeRef) (cancelled : Bool) :
    Ty × Workspace :=
  workspace.query cancelled fun ctx => Infer.nodeType ctx file node

/-- The text of the type of a node. -/
def hover (workspace : Workspace) (file : FileId) (node : NodeRef) : String × Workspace :=
  let (ty, workspace) := workspace.inferType file node false
  (ty.format, workspace)

/-- The declarations that a node refers to. -/
def references (workspace : Workspace) (file : FileId) (node : NodeRef) :
    List DeclKey × Workspace :=
  workspace.query false fun ctx => Infer.references ctx file node

/-- Whether the first type is below the second. -/
def isSubtype (workspace : Workspace) (a b : Ty) : Bool × Workspace :=
  workspace.query false fun ctx => Infer.isSubtype ctx a b

/-- Forgets all cached types. -/
def clearCache (workspace : Workspace) : Workspace :=
  { workspace with cache := workspace.cache.clear }

end Workspace

end LuaTyping
