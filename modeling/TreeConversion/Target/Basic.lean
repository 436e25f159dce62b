import TreeConversion.Source.Basic

/-!
# Target trees

The nodes that a conversion makes, in an array that their handles index.  Handles may point nowhere
and several fields may hold the same one, so what a `Target.Tree` holds is any graph.
-/

namespace TreeConversion.Target

/-- A target node, named by its place in the array of nodes. -/
structure Handle where
  index : Nat
  deriving DecidableEq, Inhabited

/-- The text of a handle in answers. -/
def Handle.text (h : Handle) : String := "@" ++ toString h.index

/-- What a node holds under a name. -/
inductive Field where
  | node (child : Handle)
  | nodes (children : List Handle)
  | value (v : Json.Value)
  deriving Inhabited

/-- The children that a field holds, in order. -/
def Field.children : Field → List Handle
  | node child => [child]
  | nodes children => children
  | value _ => []

/-- What of a node may change after it has been made. -/
structure Label where
  kind : String
  span : Option Span
  location : Option Location
  deriving DecidableEq, Inhabited

structure Node extends Label where
  /-- In the order in which the rule declared them. -/
  fields : List (String × Field)
  /-- Whether the node stands for no source node. -/
  synthetic : Bool
  deriving Inhabited

namespace Node

/-- The children of all fields, in order. -/
def children (n : Node) : List Handle := n.fields.flatMap fun f => f.2.children

/-- The first field of the given name. -/
def field? (n : Node) (name : String) : Option Field := n.fields.lookup name

/-- The value of the first field of the given name, if that field holds one. -/
def value? (n : Node) (name : String) : Option Json.Value :=
  match n.field? name with
  | some (.value v) => some v
  | _ => none

end Node

/-- A token at its place in the text. -/
structure PlacedToken where
  kind : String
  value : String
  span : Span
  location : Location
  deriving DecidableEq

/-- A comment at its place in the text. -/
structure PlacedComment where
  style : Source.CommentStyle
  value : String
  span : Span
  location : Location
  deriving DecidableEq

structure Tree where
  nodes : Array Node
  root : Handle
  /-- Present once tokens are attached. -/
  tokens : Option (List PlacedToken)
  /-- Present once comments are attached. -/
  comments : Option (List PlacedComment)

namespace Tree

def node? (t : Tree) (h : Handle) : Option Node := t.nodes[h.index]?

def size (t : Tree) : Nat := t.nodes.size

/-- The children of a node in field order, none if there is no such node. -/
def childrenOf (t : Tree) (h : Handle) : List Handle := ((t.node? h).map Node.children).getD []

/-- The kinds of the children of a node, without those that point nowhere. -/
def childKinds (t : Tree) (h : Handle) : List String :=
  (t.childrenOf h).filterMap fun child => (t.node? child).map fun node => node.kind

end Tree

end TreeConversion.Target
