import TreeConversion.Json.Schema
import TreeConversion.Source.Basic

/-!
# Failures of a conversion

What can make a conversion fail, each cause with what is said of it, and `Stop`, the ways in which a
single rule can end without a result.
-/

namespace TreeConversion

/-- The front end could not make sense of the text. -/
structure SourceFailure where
  message : String
  position : Position
  span : Span
  code : Option Nat
  deriving DecidableEq

def SourceFailure.text (f : SourceFailure) : String :=
  f.message ++ " (" ++ f.position.text ++ ")"

/-- A rule failed at a node. -/
structure RuleFailure where
  /-- The kind of the node whose rule failed. -/
  kind : String
  position : Position
  message : String
  deriving DecidableEq

def RuleFailure.text (f : RuleFailure) : String :=
  "failed to convert " ++ f.kind ++ " at " ++ f.position.text ++ ": " ++ f.message

/-- What is wrong with the settings. -/
inductive SettingsProblem where
  | unreadable (fault : Json.Fault)
  | blankPlaceholder
  | noTokenSource
  | noCommentSource
  /-- A problem that a rule reports in its own words. -/
  | reported (message : String)
  deriving DecidableEq

def SettingsProblem.message : SettingsProblem → String
  | unreadable fault => "failed to parse conversion config: " ++ fault.message
  | blankPlaceholder => "placeholder_kind must not be empty when allow_invalid_ast is set"
  | noTokenSource => "include_tokens is set but no token source was provided"
  | noCommentSource => "include_comments is set but no comment source was provided"
  | reported message => message

/-- Why a conversion failed. -/
inductive Failure where
  | source (failure : SourceFailure)
  /-- A node has a kind for which there is no rule. -/
  | unknownKind (kind : String) (position : Position)
  | rule (failure : RuleFailure)
  | settings (problem : SettingsProblem)
  deriving DecidableEq

namespace Failure

def text : Failure → String
  | source failure => "syntax error: " ++ failure.text
  | unknownKind kind position =>
    "unknown node kind '" ++ kind ++ "' at " ++ position.text
  | rule failure => failure.text
  | settings problem => "invalid configuration: " ++ problem.message

/-- Where in the text it failed; settings have no place there. -/
def position? : Failure → Option Position
  | source failure => some failure.position
  | unknownKind _ position => some position
  | rule failure => some failure.position
  | settings _ => none

end Failure

/-- How a rule ends without a result. -/
inductive Stop where
  /-- The rule failed at its own node. -/
  | failed (message : String)
  /-- The conversion as a whole has failed. -/
  | aborted (failure : Failure)
  deriving DecidableEq

def Stop.text : Stop → String
  | failed message => message
  | aborted failure => failure.text

end TreeConversion
