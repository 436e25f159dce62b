import TreeConversion.Conversion.Action

/-!
# Rules written as scripts

A script is a list of steps that a rule goes through.  Its variables hold lists of target nodes and
live for one run of the rule; all scripts of a conversion share the global lists and the notes of a
`Script.Memory`.
-/

namespace TreeConversion.Script

/-- A source node, as a step refers to it. -/
inductive NodeRef where
  /-- The node whose rule is running. -/
  | self
  /-- The node that `each` has come to. -/
  | it
  /-- A child of the node whose rule is running, of that child, and so on. -/
  | path (indices : List Nat)

inductive Condition where
  | hasAttr (name : String)
  | nonempty (variableName : String)
  | globalSet (name : String)
  | minChildren (count : Nat)
  | switchedOn (switch : Settings.Switch)
  | never

/-- What a field of a draft is to hold. -/
inductive Content where
  /-- The first node of a variable, which must have one. -/
  | node (variableName : String)
  /-- The first node of a variable, or null. -/
  | optionalNode (variableName : String)
  | nodes (variableNames : List String)
  | value (v : Json.Value)
  /-- An attribute, or else a value. -/
  | attr (name : String) (otherwise : Json.Value)
  /-- An attribute that is a string, or else a value. -/
  | attrString (name : String) (otherwise : Json.Value)
  /-- An attribute without which the rule fails. -/
  | neededAttr (name message : String)
  /-- The text of the source node, or null. -/
  | text
  | sourceKind

structure Template where
  kind : String
  fields : List (String × Content)
  span : SpanChoice
  synthetic : Bool

/-- Where the nodes that a step gives go. -/
inductive Binding where
  | set (variableName : String)
  | append (variableName : String)
  | nowhere

/-- The kinds of failure that a script can make up. -/
inductive Abort where
  | unknownKind
  | rule
  | source
  | settings

inductive Step where
  | children (of : NodeRef) (binding : Binding)
  | convert (node : NodeRef) (binding : Binding)
  | single (node : NodeRef) (binding : Binding)
  /-- Like `convert`, or like `single`; if it stops, other steps are run instead. -/
  | attempt (node : NodeRef) (single : Bool) (binding : Binding) (otherwise : List Step)
  | emit (template : Template) (binding : Binding)
  | fail (message : String)
  | abort (kind : Abort) (message : String)
  | giveBack (variableNames : List String)
  | branch (condition : Condition) (yes no : List Step)
  /-- Runs steps for each child of the node. -/
  | each (body : List Step)
  | save (name : String) (variableNames : List String)
  | load (name : String) (binding : Binding)
  | reverse (variableNames : List String) (binding : Binding)
  | probe (variableNames : List String)
  deriving Inhabited

/-! ### What scripts share -/

/-- What a probe sees of a target node. -/
structure Sighting where
  handle : Target.Handle
  span : Option Span
  kind : Option String
  location : Option Location

/-- What a script has noted. -/
inductive Note where
  | failed (text : String)
  | aborted (failure : Failure)
  | probed (current : Source.Handle) (position : Position) (seen : List Sighting)

structure Memory where
  globals : List (String × List Target.Handle)
  notes : Array Note

namespace Memory

def empty : Memory := ⟨[], #[]⟩

def global? (m : Memory) (name : String) : Option (List Target.Handle) :=
  m.globals.lookup name

def setGlobal (m : Memory) (name : String) (handles : List Target.Handle) :
    Memory :=
  { m with globals := (name, handles) :: m.globals.filter (·.1 != name) }

def note (m : Memory) (n : Note) : Memory := { m with notes := m.notes.push n }

end Memory

end TreeConversion.Script
