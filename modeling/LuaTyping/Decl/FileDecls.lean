import LuaTyping.Decl.Collect
import LuaTyping.NamePool

/-!
# The declarations of a file

What a file declares, with tables that answer the questions asked of it: which declarations have a
name, which declare a class, alias or global, which are members of an owner, and which one a node
declares. The walk over the tree of the file fills the tables as it goes.
-/

set_option autoImplicit false

namespace LuaTyping

/-- The declarations of a file and the tables over them. -/
structure FileDecls extends DeclTables where
  file : FileId
  table : ScopeTable
  functions : Std.HashMap Nat FunctionInfo
deriving Inhabited

namespace Entry

/-- The names under which other files may depend on the declaration: the class, alias or global it
declares, and the class or global it belongs to. -/
def contributes (entry : Entry) : List String :=
  let declared := match entry.kind with
    | .classDecl | .aliasDecl | .global => [entry.name]
    | _ => []
  let owner := match entry.memberOwner? with
    | some (.ofClass name) | some (.ofGlobal name) => [name]
    | _ => []
  declared ++ owner

end Entry

namespace FileDecls

/-- The declarations found by a walk, with their tables. -/
def ofCollector (file : FileId) (found : Collector) : FileDecls :=
  { found.tables with file, table := found.table, functions := found.functions }

/-- The declarations of a tree. -/
def ofTree (file : FileId) (tree : Tree) : FileDecls := ofCollector file (Collect.run tree)

/-- The number of declarations. -/
def size (decls : FileDecls) : Nat := decls.table.entries.size

def entry? (decls : FileDecls) (decl : Nat) : Option Entry := decls.table.entry? decl

/-- The declarations of a name, of one kind if it is given. -/
def find (decls : FileDecls) (name : String) (kind : Option DeclKind) : List Nat :=
  (decls.byName.list name).filter fun decl =>
    match kind, decls.entry? decl with
    | some kind, some entry => entry.kind == kind
    | none, some _ => true
    | _, none => false

def classDecls (decls : FileDecls) (name : String) : List Nat := decls.classes.list name

def aliasDecls (decls : FileDecls) (name : String) : List Nat := decls.aliases.list name

def globalDecls (decls : FileDecls) (name : String) : List Nat := decls.globals.list name

def memberDecls (decls : FileDecls) (owner : Owner) : List Nat := decls.members.list owner

/-- The declaration that a node introduces, the first one where there are several. -/
def declForNode? (decls : FileDecls) (node : NodeRef) : Option Nat :=
  node.bind fun index => decls.byNode[index]?

/-- What is recorded of a function expression. -/
def function? (decls : FileDecls) (node : NodeRef) : Option FunctionInfo :=
  node.bind fun index => decls.functions[index]?

/-- The names under which other files may depend on this one, ascending and each once. -/
def contributedNames (decls : FileDecls) : List String :=
  dedupSorted (sortNames (decls.table.entries.toList.flatMap Entry.contributes))

end FileDecls

end LuaTyping
