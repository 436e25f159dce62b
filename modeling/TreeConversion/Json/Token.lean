import TreeConversion.Json.Number

/-!
# Tokens of a JSON text

A text is cut into brackets, separators, words, numbers and strings.  What no token can start with
gives `Token.stray`, after which nothing more is read.
-/

namespace TreeConversion.Json

inductive Token where
  | openArray
  | closeArray
  | openObject
  | closeObject
  | comma
  | colon
  | null
  | bool (b : Bool)
  /-- A number, without its value if it is too large. -/
  | number (value : Option Number)
  /-- A string, without its text if half of a surrogate pair stands alone in it. -/
  | string (text : Option String)
  | stray
  deriving Inhabited

namespace Token

def isBlank (c : Char) : Bool := c == ' ' || c == '\t' || c == '\n' || c == '\r'

/-! ### Strings -/

/-- What stands between the quotes: a character, or a 16-bit unit given by its code. -/
inductive Piece where
  | char (c : Char)
  | unit (u : Nat)

/-- The value of a hexadecimal digit. -/
def hexDigit? (c : Char) : Option Nat :=
  if '0' ≤ c && c ≤ '9' then some (c.toNat - '0'.toNat)
  else if 'a' ≤ c && c ≤ 'f' then some (c.toNat - 'a'.toNat + 10)
  else if 'A' ≤ c && c ≤ 'F' then some (c.toNat - 'A'.toNat + 10)
  else none

/-- The unit with these four digits. -/
def unit? (a b c d : Char) : Option Nat := do
  return (((← hexDigit? a) * 16 + (← hexDigit? b)) * 16 + (← hexDigit? c)) * 16 + (← hexDigit? d)

/-- The character meant by one letter after a backslash. -/
def escaped? : Char → Option Char
  | '"' => some '"'
  | '\\' => some '\\'
  | '/' => some '/'
  | 'b' => some '\x08'
  | 'f' => some '\x0c'
  | 'n' => some '\n'
  | 'r' => some '\r'
  | 't' => some '\t'
  | _ => none

/-- The pieces up to the closing quote, and how many characters were read with it. -/
def pieces? (read : List Piece) (length : Nat) : List Char → Option (List Piece × Nat)
  | [] => none
  | '"' :: _ => some (read.reverse, length + 1)
  | '\\' :: 'u' :: a :: b :: c :: d :: rest =>
    match unit? a b c d with
    | some u => pieces? (.unit u :: read) (length + 6) rest
    | none => none
  | '\\' :: letter :: rest =>
    match escaped? letter with
    | some c => pieces? (.char c :: read) (length + 2) rest
    | none => none
  | c :: rest =>
    if c == '\\' || c.toNat < 32 then none else pieces? (.char c :: read) (length + 1) rest

/-- The characters that the pieces spell; a high surrogate must be followed by a low one, and
neither may stand alone. -/
def spell? : List Piece → Option (List Char)
  | [] => some []
  | .char c :: rest => (spell? rest).map (c :: ·)
  | .unit u :: .unit v :: rest =>
    if 0xD800 ≤ u && u < 0xDC00 then
      if 0xDC00 ≤ v && v < 0xE000 then
        (spell? rest).map (Char.ofNat (0x10000 + (u - 0xD800) * 0x400 + (v - 0xDC00)) :: ·)
      else none
    else if 0xDC00 ≤ u && u < 0xE000 then none
    else (spell? (.unit v :: rest)).map (Char.ofNat u :: ·)
  | .unit u :: rest =>
    if 0xD800 ≤ u && u < 0xE000 then none else (spell? rest).map (Char.ofNat u :: ·)

/-! ### Numbers -/

def isDigit (c : Char) : Bool := '0' ≤ c && c ≤ '9'

/-- The digits at the front of a text. -/
def digits (cs : List Char) : List Nat :=
  (cs.takeWhile isDigit).map fun c => c.toNat - '0'.toNat

/-- The digits of a fraction and the length of the fraction, if one starts here; there is no token
if its digits are missing. -/
def fraction? : List Char → Option (Option (List Nat) × Nat)
  | '.' :: cs =>
    let ds := digits cs
    if ds.isEmpty then none else some (some ds, ds.length + 1)
  | _ => some (none, 0)

/-- The value and the length of an exponent, if one starts here; there is no token if its digits are
missing. -/
def exponent? : List Char → Option (Option Int × Nat)
  | [] => some (none, 0)
  | mark :: cs =>
    if mark == 'e' || mark == 'E' then
      let negated := cs.head? == some '-'
      let signed := negated || cs.head? == some '+'
      let ds := digits (if signed then cs.drop 1 else cs)
      if ds.isEmpty then none
      else
        let n : Nat := ds.foldl (· * 10 + ·) 0
        some (some (if negated then -(n : Int) else n), ds.length + 1 + (if signed then 1 else 0))
    else some (none, 0)

/-- The number at the front of a text and its length. -/
def number? (cs : List Char) : Option (Option Number × Nat) := do
  let negated := cs.head? == some '-'
  let rest := if negated then cs.drop 1 else cs
  let whole := digits rest
  if whole.isEmpty || (whole.head? == some 0 && 1 < whole.length) then none
  let rest := rest.drop whole.length
  let (fraction, fractionLength) ← fraction? rest
  let (exponent, exponentLength) ← exponent? (rest.drop fractionLength)
  return (Number.ofParts? negated whole fraction exponent,
    (if negated then 1 else 0) + whole.length + fractionLength + exponentLength)

/-! ### The tokens of a text -/

/-- The given word without its first letter, which has been read. -/
def word? (token : Token) (letters : List Char) (cs : List Char) : Option (Token × Nat) :=
  if letters.isPrefixOf cs then some (token, letters.length) else none

/-- The token that starts with `c`, and how many characters of `cs` belong to it too. -/
def first? (c : Char) (cs : List Char) : Option (Token × Nat) :=
  match c with
  | '[' => some (.openArray, 0)
  | ']' => some (.closeArray, 0)
  | '\x7b' => some (.openObject, 0)
  | '\x7d' => some (.closeObject, 0)
  | ',' => some (.comma, 0)
  | ':' => some (.colon, 0)
  | '"' => (pieces? [] 0 cs).map fun (ps, length) => (.string ((spell? ps).map String.ofList), length)
  | 'n' => word? .null ['u', 'l', 'l'] cs
  | 't' => word? (.bool true) ['r', 'u', 'e'] cs
  | 'f' => word? (.bool false) ['a', 'l', 's', 'e'] cs
  | _ =>
    if c == '-' || isDigit c then
      (number? (c :: cs)).map fun (value, length) => (.number value, length - 1)
    else none

/-- The tokens of a text, up to the first place where there is none. -/
def scan : List Char → List Token
  | [] => []
  | c :: cs =>
    if isBlank c then scan cs
    else
      match first? c cs with
      | some (token, more) => token :: scan (cs.drop more)
      | none => [.stray]
termination_by cs => cs.length
decreasing_by all_goals simp only [List.length_cons, List.length_drop]; omega

end Token

end TreeConversion.Json
