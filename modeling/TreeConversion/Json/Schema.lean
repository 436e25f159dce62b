import TreeConversion.Json.Document

/-!
# Reading records from documents

A decoder reads a value of some type from a document and reports the first fault in reading order.
It is told how many more arrays and objects may be opened.  A `Schema` lists the fields of a record:
its decoder takes an object, or an array of the fields in the order in which they are declared.
-/

namespace TreeConversion.Json

/-- What is wrong with a document. -/
inductive Fault where
  | missingField (name : String)
  | unknownField (name : String)
  | duplicateField (name : String)
  | unknownVariant (name : String)
  /-- Not JSON, or not of the expected form. -/
  | malformed
  deriving DecidableEq, Inhabited

def Fault.message : Fault → String
  | missingField name => "missing field `" ++ name ++ "`"
  | unknownField name => "unknown field `" ++ name ++ "`"
  | duplicateField name => "duplicate field `" ++ name ++ "`"
  | unknownVariant name => "unknown variant `" ++ name ++ "`"
  | malformed => "invalid document"

/-- Reads a value from a document, where so many more arrays and objects may be opened. -/
abbrev Decoder (α : Type) := Nat → Document → Except Fault α

/-- Arrays and objects may be nested this deep. -/
def nestingLimit : Nat := 127

namespace Decoder

/-- A whole number below `bound`. -/
def natural (bound : Nat) : Decoder Nat := fun _ doc =>
  match doc with
  | .number (some (.natural n)) => if n < bound then .ok n else .error .malformed
  | _ => .error .malformed

/-- A 64-bit word. -/
def word : Decoder Nat := natural UInt64.size

/-- A 32-bit word. -/
def halfWord : Decoder Nat := natural UInt32.size

def string : Decoder String := fun _ doc =>
  match doc with
  | .string (some s) => .ok s
  | _ => .error .malformed

def bool : Decoder Bool := fun _ doc =>
  match doc with
  | .bool b => .ok b
  | _ => .error .malformed

/-- Null, or what `item` reads. -/
def option {α : Type} (item : Decoder α) : Decoder (Option α) := fun depth doc =>
  match doc with
  | .null => .ok none
  | doc => (item depth doc).map some

/-- The items of an array, read in order before it is seen whether the array is closed. -/
def items {α : Type} (item : Document → Except Fault α) (docs : List Document) (closed : Bool) :
    Except Fault (List α) := do
  let values ← docs.mapM item
  if closed then .ok values else .error .malformed

def list {α : Type} (item : Decoder α) : Decoder (List α) := fun depth doc =>
  match depth, doc with
  | depth + 1, .array docs closed => items (item depth) docs closed
  | _, _ => .error .malformed

/-! ### Values -/

mutual

/-- Any JSON value; of two members with one name the later one counts. -/
def value : Nat → Document → Except Fault Value
  | _, .null => .ok .null
  | _, .bool b => .ok (.bool b)
  | _, .number (some n) => .ok (.number n)
  | _, .string (some s) => .ok (.string s)
  | depth + 1, .array docs closed => do
    let vs ← values depth docs
    if closed then .ok (.array vs) else .error .malformed
  | depth + 1, .object docs closed => do
    let ms ← members depth docs []
    if closed then .ok (.object ms) else .error .malformed
  | _, _ => .error .malformed

def values (depth : Nat) : List Document → Except Fault (List Value)
  | [] => .ok []
  | doc :: docs => do
    let v ← value depth doc
    let vs ← values depth docs
    return v :: vs

/-- The members of an object, set one after the other. -/
def members (depth : Nat) : List (Option String × Document) → Members → Except Fault Members
  | [], ms => .ok ms
  | (none, _) :: _, _ => .error .malformed
  | (some key, doc) :: docs, ms => do
    let v ← value depth doc
    members depth docs (ms.insert key v)

end

/-- The members of an object of any values. -/
def object : Decoder Members := fun depth doc =>
  match depth, doc with
  | depth + 1, .object docs closed => do
    let ms ← members depth docs []
    if closed then .ok ms else .error .malformed
  | _, _ => .error .malformed

end Decoder

/-! ### Records -/

/-- A field of a record of type `ρ`: how it is named and how it is read into a record. -/
structure Field (ρ : Type) where
  name : String
  aliases : List String
  needed : Bool
  store : Nat → Document → ρ → Except Fault ρ

namespace Field

variable {ρ β : Type}

/-- A field that must be given. -/
def required (name : String) (decode : Decoder β) (set : ρ → β → ρ) : Field ρ :=
  ⟨name, [], true, fun depth doc r => (decode depth doc).map (set r)⟩

/-- A field that may be left out. -/
def optional (name : String) (decode : Decoder β) (set : ρ → β → ρ) : Field ρ :=
  ⟨name, [], false, fun depth doc r => (decode depth doc).map (set r)⟩

def hasName (f : Field ρ) (key : String) : Bool := f.name == key || f.aliases.contains key

end Field

/-- The fields of a record in the order in which they are declared, and a record in which those that
are left out have the values they then take. -/
structure Schema (ρ : Type) where
  blank : ρ
  fields : List (Field ρ)
  /-- Whether a key that names no field is refused. -/
  strict : Bool

namespace Schema

variable {ρ : Type}

def field? (s : Schema ρ) (key : String) : Option (Field ρ) := s.fields.find? (·.hasName key)

/-- Reads the members of an object into a record; `seen` names the fields that were given. -/
def readMembers (s : Schema ρ) (depth : Nat) :
    List (Option String × Document) → List String → ρ → Except Fault (List String × ρ)
  | [], seen, r => .ok (seen, r)
  | (none, _) :: _, _, _ => .error .malformed
  | (some key, doc) :: rest, seen, r =>
    match s.field? key with
    | none =>
      if s.strict then .error (.unknownField key) else s.readMembers depth rest seen r
    | some f =>
      if f.name ∈ seen then .error (.duplicateField f.name)
      else do
        let r ← f.store depth doc r
        s.readMembers depth rest (f.name :: seen) r

/-- Reads the items of an array into the fields in order; those at the end may be left off if they
are not required. -/
def readItems (depth : Nat) (closed : Bool) :
    List (Field ρ) → List Document → ρ → Except Fault ρ
  | [], [], r => if closed then .ok r else .error .malformed
  | [], _ :: _, _ => .error .malformed
  | f :: fs, [], r =>
    if f.needed || !closed then .error .malformed else readItems depth closed fs [] r
  | f :: fs, doc :: docs, r => do
    let r ← f.store depth doc r
    readItems depth closed fs docs r

/-- The first field that must be given and was not. -/
def firstMissing? (s : Schema ρ) (seen : List String) : Option (Field ρ) :=
  s.fields.find? fun f => f.needed && !seen.contains f.name

/-- Reads a record from an object or from an array. -/
def decode (s : Schema ρ) : Decoder ρ := fun depth doc =>
  match depth, doc with
  | depth + 1, .object docs closed => do
    let (seen, r) ← s.readMembers depth docs [] s.blank
    if !closed then .error .malformed
    else
      match s.firstMissing? seen with
      | some f => .error (.missingField f.name)
      | none => .ok r
  | depth + 1, .array docs closed => readItems depth closed s.fields docs s.blank
  | _, _ => .error .malformed

end Schema

/-! ### Texts -/

/-- Reads a value from a JSON text, which must hold nothing after it. -/
def Decoder.readText {α : Type} (decode : Decoder α) (text : String) : Except Fault α := do
  let (doc, whole) := Document.read text
  let a ← decode nestingLimit doc
  if whole then .ok a else .error .malformed

end TreeConversion.Json
