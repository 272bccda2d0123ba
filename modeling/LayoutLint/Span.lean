/-!
# Span — regions of a text

A span is a half-open range of byte offsets. A position is a line, counted from one, and a column, counted in characters
from zero; a location is a pair of them. Two edits can be made together unless their spans conflict
(`Span.conflictsWith`); the relation is symmetric (`Span.conflictsWith_comm`).
-/
namespace LayoutLint

/-- A place in a text, for people: the line from one, the column in characters from zero. -/
structure Position where
  line : Nat
  column : Nat
  deriving DecidableEq, Repr

/-- A region of a text, for people. -/
structure Location where
  start : Position
  stop : Position
  deriving DecidableEq, Repr

/-- The bytes of a text from `start` up to, not including, `stop`. -/
structure Span where
  start : Nat
  stop : Nat
  deriving DecidableEq, Repr, Inhabited

namespace Span

/-- The span without bytes at `offset`. -/
def empty (offset : Nat) : Span := ⟨offset, offset⟩

/-- The number of bytes in the span. -/
def length (s : Span) : Nat := s.stop - s.start

/-- An empty span is a place to insert at. -/
def isEmpty (s : Span) : Bool := s.start == s.stop

/-- Is the byte at `offset` in the span? -/
def contains (s : Span) (offset : Nat) : Bool := s.start ≤ offset && offset < s.stop

/-- Does `t` lie in `s`? -/
def covers (s t : Span) : Bool := s.start ≤ t.start && t.stop ≤ s.stop

/-- Do the spans share a byte? -/
def intersects (s t : Span) : Bool := s.start < t.stop && t.start < s.stop

/-- Do two edits of these spans exclude one another? Spans with bytes do when they share one. An empty span excludes
another at its offset, and a span that has bytes on both sides of it. -/
def conflictsWith (s t : Span) : Bool :=
  match s.isEmpty, t.isEmpty with
  | false, false => s.intersects t
  | true, true => s.start == t.start
  | true, false => t.start < s.start && s.start < t.stop
  | false, true => s.start < t.start && t.start < s.stop

theorem conflictsWith_comm (s t : Span) : s.conflictsWith t = t.conflictsWith s := by
  cases hs : s.isEmpty <;> cases ht : t.isEmpty <;>
    simp [conflictsWith, hs, ht, intersects, Bool.and_comm, Bool.beq_comm]

/-- The least span that covers both. -/
def merge (s t : Span) : Span := ⟨min s.start t.start, max s.stop t.stop⟩

/-- Spans in the order of their starts, and of their ends where they start together. -/
def le (s t : Span) : Bool := s.start < t.start || (s.start == t.start && s.stop ≤ t.stop)

end Span

end LayoutLint
