import LuaTyping.Decl.FileDecls
import LuaTyping.Interchange.Trees

/-!
# Declarations as interchange values

What a file declares, entry by entry, with its scopes and functions.
-/

set_option autoImplicit false

namespace LuaTyping

/-- The words for kinds of declarations. -/
def DeclKind.words : List (String × DeclKind) :=
  [("Class", .classDecl), ("Alias", .aliasDecl), ("Field", .field), ("Function", .function),
    ("Local", .localVar), ("Parameter", .parameter), ("Global", .global)]

/-- The words for kinds of scopes. -/
def ScopeKind.words : List (String × ScopeKind) :=
  [("File", .file), ("Function", .function), ("Block", .block), ("Loop", .loop)]

namespace Owner

/-- Reads the owner of a member. -/
def read (value : Value) : ReadM Owner := do
  match ← value.tagged with
  | ("class", v) => do pure (.ofClass (← v.str))
  | ("table", v) => do pure (.ofTable (← v.nat))
  | ("global", v) => do pure (.ofGlobal (← v.str))
  | _ => throw "unknown owner"

def write : Owner → Value
  | .ofClass name => .record [("class", .text name)]
  | .ofTable decl => .record [("table", .ofNat decl)]
  | .ofGlobal name => .record [("global", .text name)]

end Owner

namespace InitShape

def write : InitShape → Value
  | .function params variadic => .record [("Function", .list [.ofNat params, .bool variadic])]
  | .table => .text "Table"
  | .literal => .text "Literal"
  | .call => .text "Call"
  | .name text => .record [("Name", .text text)]
  | .numericFor => .text "NumericFor"
  | .iterator => .text "Iterator"
  | .other => .text "Other"

end InitShape

def Initializer.write (init : Initializer) : Value :=
  .list [NodeRef.write init.expr, .ofNat init.valueIndex, init.shape.write]

def Span.write (span : Span) : Value := .list [.ofNat span.start, .ofNat span.stop]

/-- Writes a declaration with its number. -/
def Entry.write (decl : Nat) (entry : Entry) : Value :=
  .record [("id", .ofNat decl), ("kind", .wordFor DeclKind.words entry.kind),
    ("name", .text entry.name), ("declared", .ofOption Ty.write entry.declared),
    ("overloads", .ofList Ty.write entry.overloads),
    ("init", .ofOption Initializer.write entry.initializer),
    ("visibility", .text entry.visibility.keyword), ("deprecated", .bool entry.deprecated),
    ("scope", .ofOption .ofNat entry.scope), ("owner", .ofOption Owner.write entry.owner),
    ("node", NodeRef.write entry.node), ("span", entry.span.write),
    ("visible_from", .ofNat entry.visibleFrom), ("hoisted", .bool entry.hoisted),
    ("worth", .ofNat entry.worth.points), ("generics", .texts entry.generics),
    ("supers", .texts entry.supers), ("class", .ofOption .text entry.className),
    ("member", .bool entry.isMember)]

def Scope.write (scope : Scope) : Value :=
  .record [("kind", .wordFor ScopeKind.words scope.kind), ("parent", .ofOption .ofNat scope.parent),
    ("span", scope.span.write), ("decls", .ofList .ofNat scope.decls.toList),
    ("children", .ofList .ofNat scope.children.toList), ("function", NodeRef.write scope.function)]

/-- Writes what is recorded of the function at a node. -/
def FunctionInfo.write (node : Nat) (info : FunctionInfo) : Value :=
  .record [("node", .ofNat node), ("returns", .ofOption Ty.write info.returns),
    ("generics", .texts info.generics), ("params", .ofList .ofNat info.params),
    ("variadic", .bool info.variadic), ("method_of", .ofOption Owner.write info.methodOf),
    ("return_stmts", .ofList .ofNat info.returnStmts.toList),
    ("falls_through", .bool info.fallsThrough)]

namespace FileDecls

/-- Writes all that is recorded of a file whose tree has `nodes` nodes. -/
def writeDetails (decls : FileDecls) (nodes : Nat) : List (String × Value) :=
  let functions := (List.range nodes).filterMap fun node =>
    (decls.function? (some node)).map (FunctionInfo.write node)
  let declaring := (List.range nodes).filterMap fun node =>
    (decls.declForNode? (some node)).map fun decl => Value.list [.ofNat node, .ofNat decl]
  [("entries", .list (decls.table.entries.mapIdx Entry.write).toList),
    ("scopes", .ofList Scope.write decls.table.scopes.toList), ("functions", .list functions),
    ("node_decls", .list declaring)]

end FileDecls

end LuaTyping
