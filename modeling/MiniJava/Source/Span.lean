/-!
# Places in a source text

A `Span` is a range of byte offsets of the UTF-8 text; a `Position` is the line and column that a
reader sees, next to the byte offset.
-/

namespace MiniJava

/-- The bytes from `start` up to, and not including, `stop`. -/
structure Span where
  start : Nat
  stop : Nat
deriving DecidableEq, Inhabited

namespace Span

/-- The span of a node that has no place in a text. -/
def nowhere : Span := ⟨0, 0⟩

/-- The empty span at an offset. -/
def point (offset : Nat) : Span := ⟨offset, offset⟩

/-- The number of bytes covered; a reversed span covers none. -/
def length (s : Span) : Nat := s.stop - s.start

/-- Whether no byte is covered. -/
def isEmpty (s : Span) : Bool := s.stop ≤ s.start

/-- The least span that covers both. -/
def merge (s t : Span) : Span := ⟨min s.start t.start, max s.stop t.stop⟩

end Span

/-- A line and a column, both counted from 1, and the byte offset that they stand for. -/
structure Position where
  line : Nat
  column : Nat
  offset : Nat
deriving DecidableEq, Inhabited

/-- Positions are written `line:column`. -/
def Position.display (p : Position) : String := s!"{p.line}:{p.column}"

end MiniJava
