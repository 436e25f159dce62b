import TreeConversion.Source.Basic
import TreeConversion.Position.Json

/-!
# Handles, diagnostics, tokens and comments as JSON
-/

namespace TreeConversion.Source

open Json

namespace Handle

def toValue (h : Handle) : Value := .nat h.index

def decode : Decoder Handle := fun depth doc => (Decoder.halfWord depth doc).map Handle.mk

end Handle

namespace Diagnostic

/-- A diagnostic without a code is written without that member. -/
def toValue (d : Diagnostic) : Value :=
  .ofMembers ([("message", .string d.message), ("start", .nat d.start), ("length", .nat d.length)] ++
    (d.code.map fun code => ("code", Value.nat code)).toList)

def schema : Schema Diagnostic where
  blank := ⟨"", 0, 0, none⟩
  fields := [
    .required "message" .string fun d message => { d with message },
    .required "start" .word fun d start => { d with start },
    .optional "length" .word fun d length => { d with length },
    .optional "code" (.option .halfWord) fun d code => { d with code }]
  strict := false

def decode : Decoder Diagnostic := schema.decode

end Diagnostic

namespace Token

def toValue (t : Token) : Value :=
  .ofMembers [("kind", .string t.kind), ("value", .string t.value), ("start", .nat t.start),
    ("end", .nat t.stop)]

def schema : Schema Token where
  blank := ⟨"", "", 0, 0⟩
  fields := [
    .required "kind" .string fun t kind => { t with kind },
    .required "value" .string fun t value => { t with value },
    .required "start" .word fun t start => { t with start },
    .required "end" .word fun t stop => { t with stop }]
  strict := false

def decode : Decoder Token := schema.decode

end Token

namespace CommentStyle

def toValue (s : CommentStyle) : Value := .string s.name

/-- Styles may be written with a small letter. -/
def ofName? (name : String) : Option CommentStyle :=
  if name = "Line" || name = "line" then some line
  else if name = "Block" || name = "block" then some block
  else none

/-- A name, or an object whose only member is the name with null. -/
def decode : Decoder CommentStyle := fun depth doc =>
  match depth, doc with
  | _, .string (some name) =>
    match ofName? name with
    | some style => .ok style
    | none => .error (.unknownVariant name)
  | _ + 1, .object ((some name, content) :: rest) closed =>
    match ofName? name, content with
    | none, _ => .error (.unknownVariant name)
    | some style, .null => if rest.isEmpty && closed then .ok style else .error .malformed
    | some _, _ => .error .malformed
  | _, _ => .error .malformed

end CommentStyle

namespace Comment

def toValue (c : Comment) : Value :=
  .ofMembers [("style", c.style.toValue), ("text", .string c.text), ("start", .nat c.start),
    ("end", .nat c.stop)]

def schema : Schema Comment where
  blank := ⟨.line, "", 0, 0⟩
  fields := [
    .required "style" CommentStyle.decode fun c style => { c with style },
    .required "text" .string fun c text => { c with text },
    .required "start" .word fun c start => { c with start },
    .required "end" .word fun c stop => { c with stop }]
  strict := false

def decode : Decoder Comment := schema.decode

end Comment

end TreeConversion.Source
