import TreeConversion.Source.Tree

/-!
# Building parse trees

Nodes are made detached and attached below one another.  A node has at most one parent and never
stands below itself, so what is built is a forest.
-/

namespace TreeConversion.Source

/-- Why a node cannot be attached. -/
inductive AttachError where
  | unknownParent (parent : Handle)
  | unknownChild (child : Handle)
  | hasParent (child parent : Handle)
  | cycle (child parent : Handle)
  deriving DecidableEq

def AttachError.message : AttachError → String
  | unknownParent parent => "Unknown parent node " ++ parent.text
  | unknownChild child => "Unknown child node " ++ child.text
  | hasParent child parent => "Node " ++ child.text ++ " is already a child of " ++ parent.text
  | cycle child parent =>
    "Attaching " ++ child.text ++ " below " ++ parent.text ++ " would form a cycle"

/-- A tree in the making, with the parent of each node that has one. -/
structure Builder where
  text : String
  nodes : Array Node
  parents : Array (Option Handle)
  diagnostics : List Diagnostic
  tokens : List Token
  comments : List Comment

namespace Builder

def ofText (text : String) : Builder := ⟨text, #[], #[], [], [], []⟩

/-- A new node, not attached to any other. -/
def addNode (b : Builder) (kind : String) (span : Span) (attrs : Json.Members) :
    Handle × Builder :=
  (⟨b.nodes.size⟩,
    { b with nodes := b.nodes.push ⟨kind, span, [], attrs⟩, parents := b.parents.push none })

/-- Sets an attribute; a handle of no node is passed over. -/
def setAttr (b : Builder) (h : Handle) (name : String) (value : Json.Value) : Builder :=
  { b with
    nodes := b.nodes.modify h.index fun node => { node with attrs := node.attrs.insert name value } }

/-- The parent of a node, if it has one. -/
def parent? (b : Builder) (h : Handle) : Option Handle := (b.parents[h.index]?).join

/-- Whether `h` or one of the `steps` nodes above it is `top`. -/
def isBelow (b : Builder) (top : Handle) : Nat → Handle → Bool
  | 0, _ => false
  | steps + 1, h =>
    h == top ||
      match b.parent? h with
      | some p => b.isBelow top steps p
      | none => false

/-- Makes `child` the last child of `parent`. -/
def link (b : Builder) (parent child : Handle) : Builder :=
  { b with
    parents := b.parents.modify child.index fun _ => some parent
    nodes := b.nodes.modify parent.index fun node =>
      { node with children := node.children ++ [child] } }

/-- Makes `child` the last child of `parent`, unless that would spoil the forest.  In a forest a way
up meets no more nodes than there are. -/
def attach (b : Builder) (parent child : Handle) : Except AttachError Unit × Builder :=
  if b.nodes.size ≤ parent.index then (.error (.unknownParent parent), b)
  else
    match b.parents[child.index]? with
    | none => (.error (.unknownChild child), b)
    | some (some other) => (.error (.hasParent child other), b)
    | some none =>
      if b.isBelow child b.nodes.size parent then (.error (.cycle child parent), b)
      else (.ok (), b.link parent child)

def addDiagnostic (b : Builder) (d : Diagnostic) : Builder :=
  { b with diagnostics := b.diagnostics ++ [d] }

def addToken (b : Builder) (t : Token) : Builder := { b with tokens := b.tokens ++ [t] }

def addComment (b : Builder) (c : Comment) : Builder := { b with comments := b.comments ++ [c] }

/-- The tree below `root`; nodes not attached to it stay in its array. -/
def finish (b : Builder) (root : Handle) : Tree :=
  ⟨b.text, b.nodes, root, b.diagnostics, b.tokens, b.comments⟩

end Builder

end TreeConversion.Source
