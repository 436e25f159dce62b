import TreeConversion.Json.Number

/-!
# JSON values

A value as a program holds it: the names of an object are distinct and in ascending order.
`Value.text` writes a value on one line.
-/

namespace TreeConversion.Json

inductive Value where
  | null
  | bool (b : Bool)
  | number (n : Number)
  | string (s : String)
  | array (items : List Value)
  | object (members : List (String × Value))
  deriving Inhabited

/-- The members of an object, in ascending order of their names. -/
abbrev Members := List (String × Value)

/-- Sets the value at a name, replacing one that is there. -/
def Members.insert (key : String) (value : Value) : Members → Members
  | [] => [(key, value)]
  | (k, v) :: rest =>
    if key < k then (key, value) :: (k, v) :: rest
    else if key = k then (key, value) :: rest
    else (k, v) :: Members.insert key value rest

/-- The value at a name. -/
def Members.get? (key : String) (ms : Members) : Option Value := List.lookup key ms

/-- The members with these names and values; of two with one name the later one counts. -/
def Members.ofList (pairs : List (String × Value)) : Members :=
  pairs.foldl (fun ms p => Members.insert p.1 p.2 ms) []

namespace Value

def nat (n : Nat) : Value := .number (.natural n)

/-- An object with these members; of two with one name the later one counts. -/
def ofMembers (pairs : List (String × Value)) : Value := .object (Members.ofList pairs)

/-- An absent value is written as null. -/
def ofOption : Option Value → Value
  | some v => v
  | none => .null

def string? : Value → Option String
  | .string s => some s
  | _ => none

/-! ### Writing -/

/-- The escape of a character below U+0100 by its code. -/
def codeEscape (c : Char) : List Char :=
  let digits := Nat.toDigits 16 c.toNat
  '\\' :: 'u' :: (List.replicate (4 - digits.length) '0' ++ digits)

/-- A character inside a written string.  Besides what must be escaped, the characters that end a
line are, so that a written value stays on one line. -/
def escape (c : Char) : List Char :=
  if c == '"' then ['\\', '"']
  else if c == '\\' then ['\\', '\\']
  else if c == '\n' then ['\\', 'n']
  else if c == '\r' then ['\\', 'r']
  else if c == '\t' then ['\\', 't']
  else if c.toNat < 32 || c == '\u0085' || c == '\u2028' || c == '\u2029' then codeEscape c
  else [c]

/-- A string with its quotes. -/
def quote (s : String) : String :=
  if s.all (fun c => 32 ≤ c.toNat && c.toNat < 127 && c != '"' && c != '\\') then "\"" ++ s ++ "\""
  else "\"" ++ String.ofList (s.toList.flatMap escape) ++ "\""

mutual

/-- Writes a value after the text `out`. -/
def write (out : String) : Value → String
  | .null => out ++ "null"
  | .bool true => out ++ "true"
  | .bool false => out ++ "false"
  | .number n => out ++ n.text
  | .string s => out ++ quote s
  | .array items => writeItems (out ++ "[") true items ++ "]"
  | .object members => writeMembers (out ++ "\x7b") true members ++ "\x7d"

def writeItems (out : String) (first : Bool) : List Value → String
  | [] => out
  | v :: rest => writeItems (write (if first then out else out ++ ",") v) false rest

def writeMembers (out : String) (first : Bool) : List (String × Value) → String
  | [] => out
  | (k, v) :: rest =>
    writeMembers (write ((if first then out else out ++ ",") ++ quote k ++ ":") v) false rest

end

/-- A value as one line of JSON text. -/
def text (v : Value) : String := write "" v

end Value

end TreeConversion.Json
