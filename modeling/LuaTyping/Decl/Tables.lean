import LuaTyping.Decl.Entry
import LuaTyping.Decl.ListTable

/-!
# Tables of declarations

The declarations of a file are found by name, by the class, alias or global they declare, by what
they are members of, and by the node that declares them. Each of these has its own table. A
declaration enters them once, when it is recorded, with the number that it carries.
-/

set_option autoImplicit false

namespace LuaTyping

/-- Where the declarations of a file are found. -/
structure DeclTables where
  byName : ListTable String Nat
  classes : ListTable String Nat
  aliases : ListTable String Nat
  globals : ListTable String Nat
  members : ListTable Owner Nat
  /-- For a node, the first declaration that it made. -/
  byNode : Std.HashMap Nat Nat
deriving Inhabited

namespace DeclTables

def empty : DeclTables := ⟨.empty, .empty, .empty, .empty, .empty, ∅⟩

/-- Enters a declaration. -/
def insert (tables : DeclTables) (entry : Entry) : DeclTables :=
  { byName := tables.byName.add entry.name entry.id
    classes := tables.classes.addIf (entry.nameIf .classDecl) entry.id
    aliases := tables.aliases.addIf (entry.nameIf .aliasDecl) entry.id
    globals := tables.globals.addIf (entry.nameIf .global) entry.id
    members := tables.members.addIf entry.memberOwner? entry.id
    byNode := match entry.node with
      | some node => tables.byNode.insertIfNew node entry.id
      | none => tables.byNode }

end DeclTables

end LuaTyping
