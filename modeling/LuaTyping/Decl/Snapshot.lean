import LuaTyping.Decl.FileDecls

/-!
# Snapshots of a project

A snapshot is all that is declared in the files of a project at one moment. It does not change, so
every question asked of one query gets its answer from the same state of the project. Lists of
declarations are in ascending order of files and, within a file, of declarations.

The members of a class are those attached to it by name, and also those attached to the global of
the same name where that global holds the table of the class.
-/

set_option autoImplicit false

namespace LuaTyping

/-- A file of a project: its tree and what the tree declares. The generation tells this version of
the file from earlier ones. -/
structure IndexedFile where
  file : FileId
  generation : Nat
  tree : Tree
  decls : FileDecls
deriving Inhabited

/-- The declarations to which `key?` gives a key, each with its key, in order. -/
def FileDecls.keyed {κ : Type} (key? : Entry → Option κ) (entries : Array Entry) :
    List (κ × Nat) :=
  entries.toList.zipIdx.filterMap fun (entry, decl) => (key? entry).map fun key => (key, decl)

namespace IndexedFile

/-- The declarations of the file to which `key?` gives a key, in order. -/
def keyed {κ : Type} (file : IndexedFile) (key? : Entry → Option κ) : List (κ × DeclKey) :=
  (FileDecls.keyed key? file.decls.table.entries).map fun (key, decl) => (key, ⟨file.file, decl⟩)

/-- Declarations of the file as declarations of the project. -/
def keys (file : IndexedFile) (decls : List Nat) : List DeclKey :=
  decls.map fun decl => ⟨file.file, decl⟩

end IndexedFile

namespace Entry

/-- The class that a member is attached to by name. -/
def ownerClass? (entry : Entry) : Option String :=
  match entry.memberOwner? with
  | some (.ofClass name) => some name
  | _ => none

/-- The global that a member is attached to. -/
def ownerGlobal? (entry : Entry) : Option String :=
  match entry.memberOwner? with
  | some (.ofGlobal name) => some name
  | _ => none

end Entry

/-- The files of a project in ascending order, and the tables over their declarations. -/
structure Snapshot where
  files : List IndexedFile
  byFile : Std.HashMap FileId IndexedFile
  classes : ListTable String DeclKey
  aliases : ListTable String DeclKey
  globals : ListTable String DeclKey
  attachedToClass : ListTable String DeclKey
  attachedToGlobal : ListTable String DeclKey
deriving Inhabited

namespace Snapshot

/-- The snapshot of files given in ascending order. -/
def ofFiles (files : List IndexedFile) : Snapshot :=
  let table (key? : Entry → Option String) : ListTable String DeclKey :=
    .ofPairs (files.flatMap fun file => file.keyed key?)
  { files
    byFile := .ofList (files.map fun file => (file.file, file))
    classes := table (Entry.nameIf .classDecl)
    aliases := table (Entry.nameIf .aliasDecl)
    globals := table (Entry.nameIf .global)
    attachedToClass := table Entry.ownerClass?
    attachedToGlobal := table Entry.ownerGlobal? }

def file? (snapshot : Snapshot) (file : FileId) : Option IndexedFile := snapshot.byFile[file]?

def tree? (snapshot : Snapshot) (file : FileId) : Option Tree :=
  (snapshot.file? file).map IndexedFile.tree

def decls? (snapshot : Snapshot) (file : FileId) : Option FileDecls :=
  (snapshot.file? file).map IndexedFile.decls

/-- The generation of a file, zero for one that is not there. -/
def generation (snapshot : Snapshot) (file : FileId) : Nat :=
  ((snapshot.file? file).map IndexedFile.generation).getD 0

def entry? (snapshot : Snapshot) (key : DeclKey) : Option Entry :=
  (snapshot.decls? key.file).bind fun decls => decls.entry? key.decl

/-- The form of a node of a file. -/
def form? (snapshot : Snapshot) (file : FileId) (node : NodeRef) : Option Form :=
  (snapshot.tree? file).bind fun tree => tree.form? node

/-- The offset at which a node of a file starts. -/
def startOf (snapshot : Snapshot) (file : FileId) (node : NodeRef) : Nat :=
  ((snapshot.tree? file).map fun tree => (tree.span node).start).getD 0

def classDecls (snapshot : Snapshot) (name : String) : List DeclKey := snapshot.classes.list name

def aliasDecls (snapshot : Snapshot) (name : String) : List DeclKey := snapshot.aliases.list name

def globalDecls (snapshot : Snapshot) (name : String) : List DeclKey := snapshot.globals.list name

def isClass (snapshot : Snapshot) (name : String) : Bool := snapshot.classes.contains name

/-- Adds the names that are not yet in a list, in order. -/
def addNew (names : List String) (added : List String) : List String :=
  added.foldl (fun names name => if names.contains name then names else names ++ [name]) names

/-- The direct supertypes of a class over all of its declarations, each once. -/
def supertypes (snapshot : Snapshot) (name : String) : List String :=
  (snapshot.classDecls name).foldl
    (fun supers key =>
      match snapshot.entry? key with
      | some entry => addNew supers entry.supers
      | none => supers)
    []

/-- The members attached to a global. -/
def globalMembers (snapshot : Snapshot) (name : String) : List DeclKey :=
  snapshot.attachedToGlobal.list name

/-- Whether a global named like the class holds the table of the class. -/
def globalHoldsClass (snapshot : Snapshot) (name : String) : Bool :=
  (snapshot.globalDecls name).any fun key =>
    match snapshot.entry? key with
    | some entry => entry.className == some name
    | none => false

/-- The members of a class itself, without those of the classes above it. -/
def classMembers (snapshot : Snapshot) (name : String) : List DeclKey :=
  let attached := snapshot.attachedToClass.list name
  if snapshot.globalHoldsClass name then
    (attached ++ snapshot.globalMembers name).mergeSort DeclKey.le
  else attached

/-- The members attached to a local table. -/
def tableMembers (snapshot : Snapshot) (table : DeclKey) : List DeclKey :=
  match snapshot.file? table.file with
  | some file => file.keys (file.decls.memberDecls (.ofTable table.decl))
  | none => []

/-- The members of an owner, where a local table is one of the given file. -/
def ownerMembers (snapshot : Snapshot) (file : FileId) : Owner → List DeclKey
  | .ofClass name => snapshot.classMembers name
  | .ofGlobal name => snapshot.globalMembers name
  | .ofTable decl => snapshot.tableMembers ⟨file, decl⟩

/-- The declarations of a name in all files, of one kind if it is given. -/
def find (snapshot : Snapshot) (name : String) (kind : Option DeclKind) : List DeclKey :=
  snapshot.files.flatMap fun file => file.keys (file.decls.find name kind)

end Snapshot

end LuaTyping
