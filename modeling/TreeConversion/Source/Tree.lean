import TreeConversion.Source.Basic
import TreeConversion.Text.Bytes

/-!
# Parse trees held in an array

`Source.Tree` keeps its nodes in an array that their handles index, each with its attributes.  Trees
are made by a `Source.Builder`, so the children form a forest.
-/

namespace TreeConversion.Source

/-- A node of a parse tree. -/
structure Node where
  kind : String
  span : Span
  children : List Handle
  attrs : Json.Members
  deriving Inhabited

/-- A parse tree with what the front end said of its text. -/
structure Tree where
  text : String
  nodes : Array Node
  root : Handle
  diagnostics : List Diagnostic
  tokens : List Token
  comments : List Comment

namespace Tree

def node? (t : Tree) (h : Handle) : Option Node := t.nodes[h.index]?

def size (t : Tree) : Nat := t.nodes.size

/-- The children of a node, none if there is no such node. -/
def childrenOf (t : Tree) (h : Handle) : List Handle := ((t.node? h).map Node.children).getD []

/-- The attribute of a node with the given name. -/
def attr? (t : Tree) (h : Handle) (name : String) : Option Json.Value :=
  (t.node? h).bind fun node => node.attrs.get? name

/-- The attribute of a node with the given name, if it is a string. -/
def attrString? (t : Tree) (h : Handle) (name : String) : Option String :=
  (t.attr? h name).bind Json.Value.string?

/-- The part of the text that a node spans. -/
def textOf? (t : Tree) (h : Handle) : Option String :=
  (t.node? h).bind fun node =>
    (Text.slice? node.span.start node.span.stop t.text.toList).map String.ofList

/-- The handles that come off a stack when each leaves its children on it, up to `steps` many. -/
def unstack (t : Tree) : Nat → List Handle → List Handle
  | 0, _ => []
  | _, [] => []
  | steps + 1, h :: stack => h :: unstack t steps (t.childrenOf h ++ stack)

/-- All nodes below the root and the root, each before its children.  In a forest no handle comes up
twice, so there are no more of them than nodes, or one if the root is no node. -/
def descendants (t : Tree) : List Handle := t.unstack (t.size + 1) [t.root]

instance : ParseTree Tree where
  root t := t.root
  kind t h := ((t.node? h).map Node.kind).getD ""
  span t h := ((t.node? h).map Node.span).getD ⟨0, 0⟩
  children := childrenOf
  diagnostics t := t.diagnostics
  text t := t.text

end Tree

end TreeConversion.Source
