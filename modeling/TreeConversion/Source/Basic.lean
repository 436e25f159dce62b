import TreeConversion.Position.Basic
import TreeConversion.Json.Value

/-!
# What is read of a front end

Handles of parse nodes, diagnostics, tokens and comments, and the class `ParseTree` of the trees that
can be converted.
-/

namespace TreeConversion

namespace Source

/-- A parse node, named by its number. -/
structure Handle where
  index : Nat
  deriving DecidableEq, Inhabited, Hashable

/-- The text of a handle in messages. -/
def Handle.text (h : Handle) : String := "#" ++ toString h.index

/-- A problem found by the front end. -/
structure Diagnostic where
  message : String
  start : Nat
  /-- Zero where the problem is at a point. -/
  length : Nat
  code : Option Nat
  deriving DecidableEq, Inhabited

/-- The text that is at fault, up to the last offset there is. -/
def Diagnostic.span (d : Diagnostic) : Span := ⟨d.start, min (d.start + d.length) maxOffset⟩

/-- A token of the program text. -/
structure Token where
  kind : String
  value : String
  start : Nat
  stop : Nat
  deriving DecidableEq, Inhabited

inductive CommentStyle where
  | line
  | block
  deriving DecidableEq, Inhabited

def CommentStyle.name : CommentStyle → String
  | line => "Line"
  | block => "Block"

/-- A comment of the program text: `text` is without its delimiters, the offsets are with them. -/
structure Comment where
  style : CommentStyle
  text : String
  start : Nat
  stop : Nat
  deriving DecidableEq, Inhabited

end Source

/-- A tree that a front end has parsed.  Questions about a node are meant for handles that the tree
itself gave out. -/
class ParseTree (τ : Type) where
  root : τ → Source.Handle
  /-- The kind decides which rule converts a node. -/
  kind : τ → Source.Handle → String
  span : τ → Source.Handle → Span
  /-- In the order of the text. -/
  children : τ → Source.Handle → List Source.Handle
  diagnostics : τ → List Source.Diagnostic
  text : τ → String

end TreeConversion
