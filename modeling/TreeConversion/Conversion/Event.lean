import TreeConversion.Conversion.Failure
import TreeConversion.Target.Basic

/-!
# Events

What is told of a conversion while it goes on, in the order in which it happens.
-/

namespace TreeConversion

/-- How much an event matters; the opening of a conversion has a level of its own. -/
inductive Level where
  | opening
  | trace
  | debug
  | warning
  deriving DecidableEq

def Level.name : Level → String
  | opening => "SPAN"
  | trace => "TRACE"
  | debug => "DEBUG"
  | warning => "WARN"

inductive Event where
  /-- A conversion begins at a root of this kind. -/
  | began (rootKind : String)
  /-- So many diagnostics came after the one that is reported. -/
  | diagnosticsPassedOver (count : Nat)
  /-- A rule has converted a node to so many target nodes. -/
  | converted (kind : String) (node : Source.Handle) (produced : Nat)
  /-- A placeholder stands in for a rule that failed. -/
  | substituted (failure : RuleFailure)
  /-- There is no rule for the kind of a node, which is left out. -/
  | skipped (kind : String) (position : Position)
  /-- So many target nodes were not attached. -/
  | dropped (count : Nat)
  | tokensAttached (count : Nat)
  | commentsAttached (count : Nat)
  | finished (nodes mapped failures : Nat)
  deriving DecidableEq

namespace Event

def level : Event → Level
  | began _ => .opening
  | diagnosticsPassedOver _ => .debug
  | converted .. => .trace
  | substituted _ => .warning
  | skipped .. => .warning
  | dropped _ => .debug
  | tokensAttached _ => .debug
  | commentsAttached _ => .debug
  | finished .. => .debug

def message : Event → String
  | began _ => "convert_tree"
  | diagnosticsPassedOver _ => "reporting first parse diagnostic only"
  | converted .. => "converted node"
  | substituted _ => "substituting placeholder for failed rule"
  | skipped .. => "no conversion rule for node kind, skipping subtree"
  | dropped _ => "dropped target nodes not attached to the tree"
  | tokensAttached _ => "materialized tokens"
  | commentsAttached _ => "materialized comments"
  | finished .. => "conversion finished"

/-- What an event says besides its message. -/
def details : Event → List (String × Json.Value)
  | began rootKind => [("source_kind", .string rootKind)]
  | diagnosticsPassedOver count => [("suppressed", .nat count)]
  | converted kind node produced =>
    [("kind", .string kind), ("node", .string node.text), ("produced", .nat produced)]
  | substituted failure => [("error", .string failure.text)]
  | skipped kind position => [("kind", .string kind), ("position", .string position.text)]
  | dropped count => [("dropped", .nat count)]
  | tokensAttached count => [("count", .nat count)]
  | commentsAttached count => [("count", .nat count)]
  | finished nodes mapped failures =>
    [("nodes", .nat nodes), ("mapped", .nat mapped), ("errors", .nat failures)]

/-- An event as a JSON object. -/
def toValue (e : Event) : Json.Value :=
  .ofMembers ([("level", .string e.level.name), ("message", .string e.message)] ++ e.details)

end Event

end TreeConversion
