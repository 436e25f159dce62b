import TreeConversion.Conversion.Event
import TreeConversion.Position.LineTable
import TreeConversion.Target.Walk

/-!
# Finishing a target tree

Positions that are not wanted are taken off the nodes; tokens and comments are put on the root in the
order of the text.
-/

namespace TreeConversion

/-- Where tokens come from, given the text of the program. -/
abbrev TokenSource := String → List Source.Token

/-- Where comments come from, given the text of the program. -/
abbrev CommentSource := String → List Source.Comment

namespace Target

/-- A label without the positions that are not to be kept. -/
def Label.strip (ranges locations : Bool) (l : Label) : Label :=
  { l with
    span := if ranges then l.span else none
    location := if locations then l.location else none }

/-- Takes the spans, the locations or both off the nodes that can be reached. -/
def Tree.strip (t : Tree) (ranges locations : Bool) : Tree :=
  if ranges && locations then t
  else (t.relabel (fun _ _ node => ((), node.toLabel.strip ranges locations)) ()).2

def PlacedToken.ofToken (lines : LineTable) (t : Source.Token) : PlacedToken :=
  ⟨t.kind, t.value, ⟨t.start, t.stop⟩, lines.location ⟨t.start, t.stop⟩⟩

def PlacedComment.ofComment (lines : LineTable) (c : Source.Comment) : PlacedComment :=
  ⟨c.style, c.text, ⟨c.start, c.stop⟩, lines.location ⟨c.start, c.stop⟩⟩

/-- The tokens of a text where they stand, sorted by where they start. -/
def placeTokens (lines : LineTable) (source : TokenSource) : List PlacedToken :=
  ((source lines.text).map (PlacedToken.ofToken lines)).mergeSort
    fun a b => a.span.start ≤ b.span.start

/-- The comments of a text where they stand, sorted by where they start. -/
def placeComments (lines : LineTable) (source : CommentSource) : List PlacedComment :=
  ((source lines.text).map (PlacedComment.ofComment lines)).mergeSort
    fun a b => a.span.start ≤ b.span.start

/-- Puts the tokens of a text on the root. -/
def Tree.attachTokens (t : Tree) (lines : LineTable) (source : TokenSource) : Tree × Event :=
  let tokens := placeTokens lines source
  ({ t with tokens := some tokens }, .tokensAttached tokens.length)

/-- Puts the comments of a text on the root. -/
def Tree.attachComments (t : Tree) (lines : LineTable) (source : CommentSource) : Tree × Event :=
  let comments := placeComments lines source
  ({ t with comments := some comments }, .commentsAttached comments.length)

end Target

end TreeConversion
