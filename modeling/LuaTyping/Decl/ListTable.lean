import Std.Data.HashMap

/-!
# Tables of lists

A table gives each key a list of values, in the order in which they were added. A key that was
never added has the empty list.
-/

set_option autoImplicit false

namespace LuaTyping

/-- Lists of values by key. -/
structure ListTable (κ β : Type) [BEq κ] [Hashable κ] where
  lists : Std.HashMap κ (Array β)
deriving Inhabited

namespace ListTable

variable {κ β : Type} [BEq κ] [Hashable κ]

def empty : ListTable κ β := ⟨∅⟩

/-- Adds a value at the end of the list of a key. -/
def add (table : ListTable κ β) (key : κ) (value : β) : ListTable κ β :=
  ⟨table.lists.alter key fun values => some ((values.getD #[]).push value)⟩

/-- Adds a value at the end of the list of a key, if a key is given. -/
def addIf (table : ListTable κ β) (key? : Option κ) (value : β) : ListTable κ β :=
  match key? with
  | some key => table.add key value
  | none => table

/-- The values of a key in the order in which they were added. -/
def list (table : ListTable κ β) (key : κ) : List β := (table.lists.getD key #[]).toList

def contains (table : ListTable κ β) (key : κ) : Bool := table.lists.contains key

/-- The values of all keys. -/
def values (table : ListTable κ β) : List β :=
  table.lists.toList.flatMap fun entry => entry.2.toList

/-- The table of the given pairs, added in order. -/
def ofPairs (pairs : List (κ × β)) : ListTable κ β :=
  pairs.foldl (fun table pair => table.add pair.1 pair.2) empty

theorem mem_values [LawfulBEq κ] (table : ListTable κ β) {key : κ} {value : β}
    (mem : value ∈ table.list key) : value ∈ table.values := by
  rw [list, Std.HashMap.getD_eq_getD_getElem?] at mem
  cases found : table.lists[key]? with
  | none => simp [found] at mem
  | some values =>
    rw [found] at mem
    exact List.mem_flatMap.mpr
      ⟨(key, values), Std.HashMap.mem_toList_iff_getElem?_eq_some.mpr found, mem⟩

end ListTable

end LuaTyping
