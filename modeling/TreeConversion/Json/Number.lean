/-!
# Numbers of a JSON text

A whole number that fits 64 bits is kept as such; every other number is a real one, kept as decimal
digits and an exponent.  Real numbers stand for doubles, so one that is too large for a double is
refused.
-/

namespace TreeConversion.Json

inductive Number where
  /-- A whole number below `2 ^ 64`. -/
  | natural (n : Nat)
  /-- Minus `n`, where `n` is positive and at most `2 ^ 63`. -/
  | negative (n : Nat)
  /-- The number `digits * 10 ^ exponent`, with its sign. -/
  | real (negated : Bool) (digits : Nat) (exponent : Int)
  deriving DecidableEq, Inhabited

namespace Number

/-! ### Digits as they are read -/

/-- The digits read so far: those kept, whether no more fit 64 bits, and the power of ten that
stands for the ones passed over. -/
structure Digits where
  kept : Nat
  full : Bool
  exponent : Int

/-- One more digit before the point. -/
def Digits.addWhole (d : Digits) (digit : Nat) : Digits :=
  if d.full || UInt64.size ≤ d.kept * 10 + digit then
    { d with full := true, exponent := d.exponent + 1 }
  else { d with kept := d.kept * 10 + digit }

/-- One more digit after the point. -/
def Digits.addFraction (d : Digits) (digit : Nat) : Digits :=
  if d.full || UInt64.size ≤ d.kept * 10 + digit then { d with full := true }
  else { d with kept := d.kept * 10 + digit, exponent := d.exponent - 1 }

/-- The digits before the point, in order. -/
def Digits.ofWhole (whole : List Nat) : Digits := whole.foldl addWhole ⟨0, false, 0⟩

/-- The digits after the point, in order, after those before it. -/
def Digits.withFraction (d : Digits) (fraction : List Nat) : Digits :=
  fraction.foldl addFraction { d with full := false }

/-! ### The range of a double -/

/-- The nearest number of at most 53 significant bits; of two, the one whose last bit is zero. -/
def roundToDouble (n : Nat) : Nat :=
  let unit := Nat.pow 2 (n.log2 - 52)
  let low := n / unit
  let rest := n % unit
  if unit < 2 * rest || (unit == 2 * rest && low % 2 == 1) then (low + 1) * unit else low * unit

/-- Whether `digits * 10 ^ exponent` is beyond the largest double, computed in doubles. -/
def tooLarge (digits : Nat) (exponent : Int) : Bool :=
  digits != 0 && 0 < exponent &&
    (308 < exponent ||
      Nat.pow 2 1024 ≤
        roundToDouble (roundToDouble digits * roundToDouble (Nat.pow 10 exponent.toNat)))

/-- A real number, if it is not too large. -/
def real? (negated : Bool) (digits : Nat) (exponent : Int) : Option Number :=
  if tooLarge digits exponent then none else some (.real negated digits exponent)

/-- The number written with these parts, if it is not too large.  Minus zero is a real number. -/
def ofParts? (negated : Bool) (whole : List Nat) (fraction : Option (List Nat))
    (exponent : Option Int) : Option Number :=
  let front := Digits.ofWhole whole
  match fraction, exponent with
  | none, none =>
    if front.full then real? negated front.kept front.exponent
    else if !negated then some (.natural front.kept)
    else if front.kept == 0 || UInt64.size / 2 < front.kept then some (.real true front.kept 0)
    else some (.negative front.kept)
  | _, _ =>
    let all := front.withFraction (fraction.getD [])
    real? negated all.kept (all.exponent + exponent.getD 0)

/-! ### Writing -/

/-- The text of a number: a real one is written with a point where that is short, else with an
exponent. -/
def text : Number → String
  | natural n => toString n
  | negative n => "-" ++ toString n
  | real negated digits exponent =>
    let sign := if negated then "-" else ""
    let written := Nat.toDigits 10 digits
    let places := exponent.natAbs
    if 0 ≤ exponent then
      sign ++ String.ofList written ++ (if exponent = 0 then ".0" else "e" ++ toString places)
    else if places ≤ 20 then
      let padded := List.replicate (places + 1 - written.length) '0' ++ written
      sign ++ String.ofList (padded.take (padded.length - places)) ++ "." ++
        String.ofList (padded.drop (padded.length - places))
    else sign ++ String.ofList written ++ "e-" ++ toString places

end Number

end TreeConversion.Json
