import TreeConversion.Target.Basic
import TreeConversion.Source.Json

/-!
# Target trees as JSON

A node is an object with its kind under `type` and its fields under their names; a later field of a
name replaces an earlier one.  Positions that the node carries, and on the root the tokens and
comments that are attached, replace fields of those names.
-/

namespace TreeConversion.Target

open Json

namespace PlacedToken

def toValue (t : PlacedToken) : Value :=
  .ofMembers [("type", .string t.kind), ("value", .string t.value), ("range", t.span.toValue),
    ("loc", t.location.toValue)]

def schema : Schema PlacedToken where
  blank := ⟨"", "", ⟨0, 0⟩, ⟨⟨0, 0⟩, ⟨0, 0⟩⟩⟩
  fields := [
    .required "type" .string fun t kind => { t with kind },
    .required "value" .string fun t value => { t with value },
    .required "range" Span.decode fun t span => { t with span },
    .required "loc" Location.decode fun t location => { t with location }]
  strict := false

def decode : Decoder PlacedToken := schema.decode

end PlacedToken

namespace PlacedComment

def toValue (c : PlacedComment) : Value :=
  .ofMembers [("type", c.style.toValue), ("value", .string c.value), ("range", c.span.toValue),
    ("loc", c.location.toValue)]

def schema : Schema PlacedComment where
  blank := ⟨.line, "", ⟨0, 0⟩, ⟨⟨0, 0⟩, ⟨0, 0⟩⟩⟩
  fields := [
    .required "type" Source.CommentStyle.decode fun c style => { c with style },
    .required "value" .string fun c value => { c with value },
    .required "range" Span.decode fun c span => { c with span },
    .required "loc" Location.decode fun c location => { c with location }]
  strict := false

def decode : Decoder PlacedComment := schema.decode

end PlacedComment

/-! ### Nodes -/

/-- A field, given how a child is written. -/
def Field.toValue (child : Handle → Value) : Field → Value
  | .node h => child h
  | .nodes hs => .array (hs.map child)
  | .value v => v

/-- The members of a node, given how a child is written. -/
def Node.members (n : Node) (child : Handle → Value) : Members :=
  let named := n.fields.foldl (fun ms (name, f) => ms.insert name (f.toValue child))
    (Members.ofList [("type", .string n.kind)])
  let ranged := match n.span with
    | some span => named.insert "range" span.toValue
    | none => named
  match n.location with
  | some location => ranged.insert "loc" location.toValue
  | none => ranged

namespace Tree

/-- A node with the nodes below it, to the given depth; a handle that points nowhere is null. -/
def nodeValue (t : Tree) : Nat → Handle → Value
  | 0, _ => .null
  | depth + 1, h =>
    match t.node? h with
    | some node => .object (node.members (t.nodeValue depth))
    | none => .null

/-- The tree as JSON.  If the nodes form no cycle, no way down meets more of them than there are. -/
def toValue (t : Tree) : Value :=
  let root : Members := match t.nodeValue (t.size + 1) t.root with
    | .object members => members
    | _ => []
  let withTokens : Members := match t.tokens with
    | some tokens => root.insert "tokens" (.array (tokens.map PlacedToken.toValue))
    | none => root
  .object (match t.comments with
    | some comments => withTokens.insert "comments" (.array (comments.map PlacedComment.toValue))
    | none => withTokens)

end Tree

end TreeConversion.Target
