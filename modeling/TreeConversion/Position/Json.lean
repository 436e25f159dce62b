import TreeConversion.Position.Basic
import TreeConversion.Json.Schema

/-!
# Spans and places as JSON

A span is an array of two offsets; places, locations and positions are objects.
-/

namespace TreeConversion

open Json

namespace Span

def toValue (s : Span) : Value := .array [.nat s.start, .nat s.stop]

/-- An array of exactly two offsets. -/
def decode : Decoder Span := fun depth doc => do
  match ← Decoder.list Decoder.word depth doc with
  | [start, stop] => return ⟨start, stop⟩
  | _ => .error .malformed

end Span

namespace Place

def toValue (p : Place) : Value := .ofMembers [("line", .nat p.line), ("column", .nat p.column)]

def schema : Schema Place where
  blank := ⟨0, 0⟩
  fields := [
    .required "line" .word fun p line => { p with line },
    .required "column" .word fun p column => { p with column }]
  strict := false

def decode : Decoder Place := schema.decode

end Place

namespace Location

def toValue (l : Location) : Value :=
  .ofMembers [("start", l.start.toValue), ("end", l.stop.toValue)]

def schema : Schema Location where
  blank := ⟨⟨0, 0⟩, ⟨0, 0⟩⟩
  fields := [
    .required "start" Place.decode fun l start => { l with start },
    .required "end" Place.decode fun l stop => { l with stop }]
  strict := false

def decode : Decoder Location := schema.decode

end Location

namespace Position

def toValue (p : Position) : Value :=
  .ofMembers [("offset", .nat p.offset), ("line", .nat p.line), ("column", .nat p.column)]

def schema : Schema Position where
  blank := { line := 0, column := 0, offset := 0 }
  fields := [
    .required "offset" .word fun p offset => { p with offset },
    .required "line" .word fun p line => { p with line },
    .required "column" .word fun p column => { p with column }]
  strict := false

def decode : Decoder Position := schema.decode

end Position

end TreeConversion
