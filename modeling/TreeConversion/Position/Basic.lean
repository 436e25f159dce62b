/-!
# Spans and places of a text

A `Span` is a pair of byte offsets, a `Place` a line and a column, a `Location` the places of the two
ends of a span, and a `Position` a place with its offset.  Spans come from outside and may be inverted
or lie past the end of their text.
-/

namespace TreeConversion

/-- Offsets are 64-bit words: sums stop here. -/
def maxOffset : Nat := UInt64.size - 1

/-- The bytes from `start` up to and without `stop`. -/
structure Span where
  start : Nat
  stop : Nat
  deriving DecidableEq, Inhabited

namespace Span

/-- The number of bytes covered; an inverted span covers none. -/
def length (s : Span) : Nat := s.stop - s.start

def isEmpty (s : Span) : Bool := s.length == 0

def contains (s : Span) (offset : Nat) : Bool := s.start ≤ offset && offset < s.stop

/-- The least span over both. -/
def union (s t : Span) : Span := ⟨min s.start t.start, max s.stop t.stop⟩

/-- The least span over all of them, if there is one. -/
def cover : List Span → Option Span
  | [] => none
  | s :: rest => some (rest.foldl union s)

end Span

/-- A line, counted from one, and a column, counted from zero. -/
structure Place where
  line : Nat
  column : Nat
  deriving DecidableEq, Inhabited

/-- The text of a place in messages. -/
def Place.text (p : Place) : String := toString p.line ++ ":" ++ toString p.column

/-- The places of the two ends of a span. -/
structure Location where
  start : Place
  stop : Place
  deriving DecidableEq, Inhabited

/-- A place together with the offset it was found at. -/
structure Position extends Place where
  offset : Nat
  deriving DecidableEq, Inhabited

end TreeConversion
