import TreeConversion.Json.Token
import TreeConversion.Json.Value

/-!
# JSON documents

A document is what can be read of a JSON text, in the order in which it is read: members keep their
order and their repetitions, and where the text stops being JSON the document is cut short.  So the
first problem of a text in reading order can still be told when the text is faulty further on.
-/

namespace TreeConversion.Json

inductive Document where
  | null
  | bool (b : Bool)
  /-- A number, without its value if it is too large. -/
  | number (value : Option Number)
  /-- A string, without its text if half of a surrogate pair stands alone in it. -/
  | string (text : Option String)
  /-- The items read, and whether the bracket is closed. -/
  | array (items : List Document) (closed : Bool)
  /-- The members read, and whether the brace is closed. -/
  | object (members : List (Option String × Document)) (closed : Bool)
  /-- Stands where a value should be and none can be read. -/
  | missing
  deriving Inhabited

namespace Document

/-! ### Reading -/

/-- An array or object that is not closed yet, with what it holds so far, the last first. -/
inductive Frame where
  | array (items : List Document)
  /-- The key is the one whose value is to come. -/
  | object (members : List (Option String × Document)) (key : Option (Option String))

/-- What may come next inside an open array or object, or at the start. -/
inductive Expected where
  | value
  | valueOrClose
  | key
  | keyOrClose
  | colon
  | commaOrClose
  deriving DecidableEq

/-- How far a text has been read. -/
inductive Progress where
  | reading (frames : List Frame) (expected : Expected)
  /-- A whole document, and nothing after it. -/
  | complete (document : Document)
  /-- The text is not JSON, or goes on after a whole document. -/
  | stopped (document : Document)

/-- A frame that is left open, around a last value. -/
def Frame.leave (last : Option Document) : Frame → Document
  | .array items => .array (last.toList.reverse ++ items).reverse false
  | .object members none => .object members.reverse false
  | .object members (some key) => .object ((key, last.getD .missing) :: members).reverse false

/-- The document that the open frames amount to when no more is read. -/
def abandon : List Frame → Document
  | [] => .missing
  | frame :: frames => frames.foldl (fun inner outer => outer.leave (some inner)) (frame.leave none)

/-- A value has been read inside these frames. -/
def place (value : Document) : List Frame → Progress
  | [] => .complete value
  | .array items :: frames => .reading (.array (value :: items) :: frames) .commaOrClose
  | .object members (some key) :: frames =>
    .reading (.object ((key, value) :: members) none :: frames) .commaOrClose
  | .object members none :: frames => .stopped (abandon (.object members none :: frames))

/-- A value that starts with this token. -/
def startValue (frames : List Frame) : Token → Progress
  | .null => place .null frames
  | .bool b => place (.bool b) frames
  | .number n => place (.number n) frames
  | .string s => place (.string s) frames
  | .openArray => .reading (.array [] :: frames) .valueOrClose
  | .openObject => .reading (.object [] none :: frames) .keyOrClose
  | _ => .stopped (abandon frames)

/-- One more token is read. -/
def Progress.step : Progress → Token → Progress
  | .reading frames .value, token => startValue frames token
  | .reading (.array items :: frames) .valueOrClose, .closeArray =>
    place (.array items.reverse true) frames
  | .reading frames .valueOrClose, token => startValue frames token
  | .reading (.object members none :: frames) .key, .string key =>
    .reading (.object members (some key) :: frames) .colon
  | .reading (.object members none :: frames) .keyOrClose, .string key =>
    .reading (.object members (some key) :: frames) .colon
  | .reading (.object members none :: frames) .keyOrClose, .closeObject =>
    place (.object members.reverse true) frames
  | .reading frames .colon, .colon => .reading frames .value
  | .reading (.array items :: frames) .commaOrClose, .comma =>
    .reading (.array items :: frames) .value
  | .reading (.array items :: frames) .commaOrClose, .closeArray =>
    place (.array items.reverse true) frames
  | .reading (.object members none :: frames) .commaOrClose, .comma =>
    .reading (.object members none :: frames) .key
  | .reading (.object members none :: frames) .commaOrClose, .closeObject =>
    place (.object members.reverse true) frames
  | .reading frames _, _ => .stopped (abandon frames)
  | .complete document, _ => .stopped document
  | .stopped document, _ => .stopped document

/-- The document read, and whether the text is that document and nothing else. -/
def Progress.result : Progress → Document × Bool
  | .reading frames _ => (abandon frames, false)
  | .complete document => (document, true)
  | .stopped document => (document, false)

/-- Reads a text as far as it is JSON; says too whether it is one JSON document to its end. -/
def read (text : String) : Document × Bool :=
  ((Token.scan text.toList).foldl Progress.step (.reading [] .value)).result

/-! ### Documents of values -/

mutual

/-- The document that a written value is. -/
def ofValue : Value → Document
  | .null => .null
  | .bool b => .bool b
  | .number n => .number (some n)
  | .string s => .string (some s)
  | .array items => .array (ofItems items) true
  | .object members => .object (ofMembers members) true

def ofItems : List Value → List Document
  | [] => []
  | v :: rest => ofValue v :: ofItems rest

def ofMembers : List (String × Value) → List (Option String × Document)
  | [] => []
  | (k, v) :: rest => (some k, ofValue v) :: ofMembers rest

end

end Document

end TreeConversion.Json
