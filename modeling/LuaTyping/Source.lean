/-!
# Files and positions

A file is known by its number and a place in it by a half-open range of byte offsets. Offsets are
natural numbers; nothing here depends on their size.
-/

set_option autoImplicit false

namespace LuaTyping

/-- One source file of a project. -/
structure FileId where
  number : Nat
deriving DecidableEq, Hashable, Inhabited, Repr

/-- A file is written with its number, as in `file#3`. -/
def FileId.render (file : FileId) : String :=
  "file#" ++ toString file.number

/-- The half-open byte range from `start` up to but not including `stop`. A range whose `stop` is
not above its `start` is empty; it need not be in order. -/
structure Span where
  start : Nat
  stop : Nat
deriving DecidableEq, Inhabited, Repr

namespace Span

/-- The empty span at one offset. -/
def point (pos : Nat) : Span := ⟨pos, pos⟩

/-- The number of offsets in the span, zero for one that runs backwards. -/
def length (span : Span) : Nat := span.stop - span.start

def isEmpty (span : Span) : Bool := span.stop ≤ span.start

/-- Whether `pos` falls inside the span. The end offset counts as inside, so that a reference at
the very end of a block still sees the block's scope. -/
def contains (span : Span) (pos : Nat) : Bool :=
  span.start ≤ pos && pos ≤ span.stop

/-- Whether both ends of `inner` lie within `outer`. -/
def encloses (outer inner : Span) : Bool :=
  outer.start ≤ inner.start && inner.stop ≤ outer.stop

/-- The smallest span that covers both. -/
def cover (a b : Span) : Span :=
  ⟨min a.start b.start, max a.stop b.stop⟩

/-- A span is written as its two ends, as in `3..8`. -/
def render (span : Span) : String :=
  toString span.start ++ ".." ++ toString span.stop

end Span

/-- Where a declaration stands: enough to navigate to it without its tree. -/
structure Site where
  file : FileId
  span : Span
deriving DecidableEq, Inhabited, Repr

/-- A site is written as its file and span, as in `file#1@3..8`. -/
def Site.render (site : Site) : String :=
  site.file.render ++ "@" ++ site.span.render

end LuaTyping
