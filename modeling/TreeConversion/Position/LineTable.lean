import TreeConversion.Position.Basic
import TreeConversion.Text.Bytes

/-!
# Line tables

The offsets at which the lines of a text start, and the place of an offset.  A line ends after a
carriage return with a line feed, after either of them alone, and after the line and paragraph
separators U+2028 and U+2029.
-/

namespace TreeConversion

/-- A text with the offsets at which its lines start, in ascending order. -/
structure LineTable where
  text : String
  starts : Array Nat

namespace LineTable

/-- The characters that end a line on their own. -/
def isTerminator (c : Char) : Bool :=
  c == '\n' || c == '\r' || c == '\u2028' || c == '\u2029'

/-- The offsets after the line ends of a text that itself starts at offset `here`. -/
def startsAfter : Nat → List Char → List Nat
  | _, [] => []
  | here, '\r' :: '\n' :: cs => (here + 2) :: startsAfter (here + 2) cs
  | here, c :: cs =>
    let next := here + c.utf8Size
    if isTerminator c then next :: startsAfter next cs else startsAfter next cs

def ofText (text : String) : LineTable := ⟨text, (0 :: startsAfter 0 text.toList).toArray⟩

def lineCount (t : LineTable) : Nat := t.starts.size

/-- The last index in `[low, high)` whose entry is at most `offset`, where the entry at `low` is. -/
def search (starts : Array Nat) (offset low high : Nat) : Nat :=
  if low + 1 < high then
    let middle := (low + high) / 2
    if starts.getD middle 0 ≤ offset then search starts offset middle high
    else search starts offset low middle
  else low
termination_by high - low

/-- The position of an offset; one past the end of the text stands for the end.  The column counts
characters, or bytes where the offset lies inside a character. -/
def position (t : LineTable) (offset : Nat) : Position :=
  let chars := t.text.toList
  let offset := min offset (Text.byteLength chars)
  let row := search t.starts offset 0 t.starts.size
  let lineStart := t.starts.getD row 0
  let column :=
    match Text.slice? lineStart offset chars with
    | some line => line.length
    | none => offset - lineStart
  { line := row + 1, column, offset }

/-- The places of the two ends of a span. -/
def location (t : LineTable) (s : Span) : Location :=
  ⟨(t.position s.start).toPlace, (t.position s.stop).toPlace⟩

end LineTable

end TreeConversion
