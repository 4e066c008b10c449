/-!
# A pool of names

A pool hands out names and remembers every text it has handed out until it is told to release the
ones that nobody holds. A name is its text, so two names are equal exactly when their texts are;
the pool only decides how long a text counts as known. Who holds what is kept beside the pool, as
labels, because releasing asks for it.
-/

set_option autoImplicit false

namespace LuaTyping

/-- The texts known to the pool, each once, and the holders that keep some of them alive. -/
structure NamePool where
  texts : List String
  holders : List (String × String)
deriving Inhabited, Repr

namespace NamePool

def empty : NamePool := ⟨[], []⟩

/-- The number of distinct texts the pool knows. -/
def size (pool : NamePool) : Nat := pool.texts.length

def isEmpty (pool : NamePool) : Bool := pool.texts.isEmpty

/-- Makes `text` known without holding it. -/
def intern (pool : NamePool) (text : String) : NamePool :=
  if pool.texts.contains text then pool else { pool with texts := text :: pool.texts }

/-- The text held under `label`. -/
def held? (pool : NamePool) (label : String) : Option String :=
  (pool.holders.find? fun holder => holder.1 == label).map Prod.snd

/-- Whether something is held under `label`, and the pool in which nothing is. The text stays known
until the next `purge`. -/
def release (pool : NamePool) (label : String) : Bool × NamePool :=
  ((pool.held? label).isSome,
    { pool with holders := pool.holders.filter fun holder => holder.1 != label })

/-- Makes `text` known and holds it under `label`, in place of what was held there. -/
def hold (pool : NamePool) (label text : String) : NamePool :=
  let interned := pool.intern text
  { interned with
    holders := (label, text) :: interned.holders.filter fun holder => holder.1 != label }

/-- Whether both labels hold a name, and the same one. -/
def same (pool : NamePool) (first second : String) : Bool :=
  match pool.held? first, pool.held? second with
  | some a, some b => a == b
  | _, _ => false

/-- Whether some label holds `text`. -/
def isHeld (pool : NamePool) (text : String) : Bool :=
  pool.holders.any fun holder => holder.2 == text

/-- Forgets every text that no label holds, and says how many those were. -/
def purge (pool : NamePool) : Nat × NamePool :=
  let kept := pool.texts.filter pool.isHeld
  (pool.texts.length - kept.length, { pool with texts := kept })

end NamePool

/-- The names in ascending order of their bytes, which is the order of their code points. -/
def sortNames (names : List String) : List String :=
  names.mergeSort fun a b => decide (a ≤ b)

/-- A sorted list with each run of equal names cut to one. -/
def dedupSorted : List String → List String
  | [] => []
  | [name] => [name]
  | a :: b :: rest => if a == b then dedupSorted (b :: rest) else a :: dedupSorted (b :: rest)

end LuaTyping
