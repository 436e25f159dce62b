import TreeConversion.Conversion.Failure
import TreeConversion.Text.Blank

/-!
# Settings of a conversion

Eight switches and the kind of placeholder nodes.  As JSON, each switch goes by its name or by an
alias; a name that is none of these is refused.
-/

namespace TreeConversion

open Json

/-- What a conversion is asked to do. -/
structure Settings where
  /-- Leave the spans on the nodes. -/
  ranges : Bool
  /-- Leave the lines and columns on the nodes. -/
  locations : Bool
  tokens : Bool
  comments : Bool
  /-- Fail at a node for whose kind there is no rule, instead of leaving it out. -/
  failOnUnknown : Bool
  /-- Hand out which node came from which. -/
  origins : Bool
  /-- Put a placeholder where a rule fails, instead of failing. -/
  allowInvalid : Bool
  placeholderKind : String
  /-- Do not warn of nodes that are left out. -/
  quiet : Bool
  deriving DecidableEq

namespace Settings

def standard : Settings where
  ranges := false
  locations := false
  tokens := false
  comments := false
  failOnUnknown := false
  origins := true
  allowInvalid := false
  placeholderKind := "InvalidNode"
  quiet := false

instance : Inhabited Settings := ⟨standard⟩

/-! ### Switches -/

/-- The settings that are on or off. -/
inductive Switch where
  | ranges
  | locations
  | tokens
  | comments
  | failOnUnknown
  | origins
  | allowInvalid
  | quiet
  deriving DecidableEq

namespace Switch

def all : List Switch :=
  [ranges, locations, tokens, comments, failOnUnknown, origins, allowInvalid, quiet]

def name : Switch → String
  | ranges => "include_position_ranges"
  | locations => "include_line_column"
  | tokens => "include_tokens"
  | comments => "include_comments"
  | failOnUnknown => "fail_on_unknown_node_kind"
  | origins => "preserve_node_maps"
  | allowInvalid => "allow_invalid_ast"
  | quiet => "suppress_unknown_kind_warnings"

def aliases : Switch → List String
  | ranges => ["range"]
  | locations => ["loc"]
  | tokens => ["tokens"]
  | comments => ["comment"]
  | failOnUnknown => ["errorOnUnknownASTType"]
  | origins => ["preserveNodeMaps"]
  | allowInvalid => ["allowInvalidAST"]
  | quiet => []

/-- The switch of the given name. -/
def ofName? (name : String) : Option Switch := all.find? (·.name == name)

end Switch

def get (s : Settings) : Switch → Bool
  | .ranges => s.ranges
  | .locations => s.locations
  | .tokens => s.tokens
  | .comments => s.comments
  | .failOnUnknown => s.failOnUnknown
  | .origins => s.origins
  | .allowInvalid => s.allowInvalid
  | .quiet => s.quiet

def set (s : Settings) (switch : Switch) (on : Bool) : Settings :=
  match switch with
  | .ranges => { s with ranges := on }
  | .locations => { s with locations := on }
  | .tokens => { s with tokens := on }
  | .comments => { s with comments := on }
  | .failOnUnknown => { s with failOnUnknown := on }
  | .origins => { s with origins := on }
  | .allowInvalid => { s with allowInvalid := on }
  | .quiet => { s with quiet := on }

@[simp] theorem get_set (s : Settings) (switch other : Switch) (on : Bool) :
    (s.set switch on).get other = if switch = other then on else s.get other := by
  cases switch <;> cases other <;> rfl

/-- Whether some positions are to be taken off the nodes. -/
def strips (s : Settings) : Bool := !s.ranges || !s.locations

/-- Whether placeholders are allowed and would have a blank kind. -/
def placeholderBlank (s : Settings) : Bool := s.allowInvalid && Text.allBlank s.placeholderKind

/-! ### Settings as JSON -/

def toValue (s : Settings) : Value :=
  .ofMembers (("placeholder_kind", .string s.placeholderKind) ::
    Switch.all.map fun switch => (switch.name, .bool (s.get switch)))

def Switch.field (switch : Switch) : Json.Field Settings :=
  { Json.Field.optional switch.name .bool fun (s : Settings) on => s.set switch on with
    aliases := switch.aliases }

def schema : Schema Settings where
  blank := standard
  fields := [
    Switch.ranges.field, Switch.locations.field, Switch.tokens.field, Switch.comments.field,
    Switch.failOnUnknown.field, Switch.origins.field, Switch.allowInvalid.field,
    .optional "placeholder_kind" .string fun s placeholderKind => { s with placeholderKind },
    Switch.quiet.field]
  strict := true

def decode : Decoder Settings := schema.decode

/-- Reads settings from a JSON text. -/
def ofJson (text : String) : Except Fault Settings := decode.readText text

/-- Reads settings from a JSON text; a text that is refused is a problem with the settings. -/
def load (text : String) : Except Failure Settings :=
  (ofJson text).mapError fun fault => .settings (.unreadable fault)

end Settings

end TreeConversion
