import TreeConversion.Source.Builder
import TreeConversion.Source.Json

/-!
# Parse trees written as nested documents

An `Outline` is a node with its children inside it.  A written tree holds the text, the outline of
the root, and lists of diagnostics, tokens and comments.  Its nodes get their handles in pre-order.
-/

namespace TreeConversion.Source

open Json

/-- A node as it is written, with its children. -/
structure Outline where
  kind : String
  span : Span
  attrs : Members
  children : List Outline

namespace Outline

/-- The fields of an outline, given how its children are read. -/
def schema (children : Decoder (List Outline)) : Schema Outline where
  blank := ⟨"", ⟨0, 0⟩, [], []⟩
  fields := [
    .required "kind" .string fun o kind => { o with kind },
    .required "range" Span.decode fun o span => { o with span },
    .optional "attrs" .object fun o attrs => { o with attrs },
    .optional "children" children fun o children => { o with children }]
  strict := false

/-- Reads an outline.  Each generation takes two levels of nesting: the outline and the array of
children that it is in. -/
def decode : Nat → Document → Except Fault Outline
  | 0, _ => .error .malformed
  | 1, doc => (schema fun _ _ => .error .malformed).decode 1 doc
  | depth + 2, doc =>
    (schema fun _ inner =>
      match inner with
      | .array docs closed => Decoder.items (decode depth) docs closed
      | _ => .error .malformed).decode (depth + 2) doc

end Outline

/-- A parse tree as it is written. -/
structure WrittenTree where
  text : String
  root : Outline
  diagnostics : List Diagnostic
  tokens : List Token
  comments : List Comment

namespace WrittenTree

def schema : Schema WrittenTree where
  blank := ⟨"", ⟨"", ⟨0, 0⟩, [], []⟩, [], [], []⟩
  fields := [
    .required "text" .string fun t text => { t with text },
    .required "root" Outline.decode fun t root => { t with root },
    .optional "diagnostics" (.list Diagnostic.decode) fun t diagnostics => { t with diagnostics },
    .optional "tokens" (.list Token.decode) fun t tokens => { t with tokens },
    .optional "comments" (.list Comment.decode) fun t comments => { t with comments }]
  strict := false

def decode : Decoder WrittenTree := schema.decode

end WrittenTree

/-! ### Nodes in pre-order -/

namespace Builder

mutual

/-- Adds the nodes of an outline in pre-order, each attached to its parent once all that is below it
is there. -/
def plant (b : Builder) : Outline → Except AttachError (Handle × Builder)
  | ⟨kind, span, attrs, children⟩ => do
    let (h, b) := b.addNode kind span attrs
    let b ← b.plantAll h children
    return (h, b)

def plantAll (b : Builder) (parent : Handle) : List Outline → Except AttachError Builder
  | [] => return b
  | o :: os => do
    let (child, b) ← b.plant o
    let (answer, b) := b.attach parent child
    answer
    b.plantAll parent os

end

end Builder

/-- What is said of a tree document that cannot be read. -/
def treeMessage (fault : Fault) : String := "Failed to parse syntax tree JSON: " ++ fault.message

/-- Why a tree cannot be loaded. -/
inductive LoadProblem where
  | unreadable (fault : Fault)
  | unattached (error : AttachError)

def LoadProblem.message : LoadProblem → String
  | unreadable fault => treeMessage fault
  | unattached error => error.message

namespace Tree

/-- The tree that is written so, made by the calls of a builder. -/
def load (w : WrittenTree) : Except AttachError Tree := do
  let (root, b) ← (Builder.ofText w.text).plant w.root
  let b := w.diagnostics.foldl Builder.addDiagnostic b
  let b := w.tokens.foldl Builder.addToken b
  let b := w.comments.foldl Builder.addComment b
  return b.finish root

/-- Reads a tree from the text of a nested document. -/
def ofJson (text : String) : Except LoadProblem Tree :=
  match Decoder.readText WrittenTree.decode text with
  | .error fault => .error (.unreadable fault)
  | .ok w => (load w).mapError .unattached

end Tree

end TreeConversion.Source
