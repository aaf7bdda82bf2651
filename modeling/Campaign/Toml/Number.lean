import Campaign.Decimal.Layout
import Campaign.Decimal.Read
import Campaign.Hexadecimal
import Campaign.Toml.Basic

/-!
# Numbers in TOML

* `Number.splitFloat?`, `Number.splitInteger?`: the number at the front of a value;
* `Number.writeFloat`: a double as written.

An underscore may stand between two digits.
-/

namespace Campaign.Toml.Number

/-! ### Digits -/

/-- Digits with underscores between them: the digits, and what follows. -/
def grouped (isDigit : Char → Bool) : List Char → List Char × List Char
  | [] => ([], [])
  | '_' :: c :: s =>
    if isDigit c then
      let (digits, rest) := grouped isDigit s
      (c :: digits, rest)
    else ([], '_' :: c :: s)
  | c :: s =>
    if isDigit c then
      let (digits, rest) := grouped isDigit s
      (c :: digits, rest)
    else ([], c :: s)

/-- At least one digit. -/
def digits? (isDigit : Char → Bool) (s : List Char) : Option (List Char × List Char) :=
  if s.head?.any isDigit then some (grouped isDigit s) else none

/-- The digits in front of a point: a zero alone, or digits that start with another one. -/
def splitWhole? : List Char → Option (List Char × List Char)
  | '0' :: s => some (['0'], s)
  | s => digits? Char.isDigit s

/-! ### Doubles -/

/-- An exponent from its mark on. -/
def splitExponent? : List Char → Option (Int × List Char)
  | [] => none
  | mark :: s =>
    if mark = 'e' ∨ mark = 'E' then do
      let (negative, s) := Decimal.splitSign s
      let (digits, rest) ← digits? Char.isDigit s
      let n : Int := Decimal.ofDigits digits
      return (if negative then -n else n, rest)
    else none

/-- The digits after a point, from the point on. -/
def splitFraction? : List Char → Option (List Char × List Char)
  | '.' :: s => digits? Char.isDigit s
  | _ => none

/-- The decimal at the front of a text; it has a fraction, an exponent, or both. -/
def splitDecimal? (s : List Char) : Option (Decimal × List Char) := do
  let (whole, s) ← splitWhole? s
  match splitFraction? s with
  | none =>
    let (e, s) ← splitExponent? s
    return (⟨Decimal.ofDigits whole, e⟩, s)
  | some (fraction, s) =>
    let (e, s) := (splitExponent? s).getD (0, s)
    return (⟨Decimal.ofDigits (whole ++ fraction), e - fraction.length⟩, s)

/-- The double at the front of a text: a decimal, or the word for infinity or for not-a-number.

A decimal above the greatest double is refused; one below the least reads as minus infinity. -/
def splitFloat? (s : List Char) : Option (Float × List Char) := do
  let (negative, s) := Decimal.splitSign s
  match s with
  | 'i' :: 'n' :: 'f' :: rest => return (if negative then -(1.0 / 0.0) else 1.0 / 0.0, rest)
  | 'n' :: 'a' :: 'n' :: rest => return (0.0 / 0.0, rest)
  | s =>
    let (d, rest) ← splitDecimal? s
    let x := d.toFloat negative
    if x.isInf && !negative then none else some (x, rest)

/-- All digits in front of the point, and a point in every number. -/
def style : Decimal.Style where
  positional := none
  keepsPoint := true
  plusExponent := false
  tie := .up
  nan := "nan"
  infinity := "inf"
  unsignedSpecials := false

/-- A double as written. -/
def writeFloat (x : Float) : List Char := (style.render x).toList

/-! ### Integers -/

/-- The number that digits of a base write. -/
def ofDigits (base : Nat) (digits : List Char) : Nat :=
  digits.foldl (fun n c => base * n + (Hexadecimal.value? c).getD 0) 0

/-- The integer at the front of a text, without a bound. -/
def splitUnbounded? (s : List Char) : Option (Int × List Char) :=
  match s with
  | '0' :: 'x' :: s => based 16 s
  | '0' :: 'o' :: s => based 8 s
  | '0' :: 'b' :: s => based 2 s
  | s => do
    let (negative, s) := Decimal.splitSign s
    let (digits, rest) ← splitWhole? s
    let n : Int := Decimal.ofDigits digits
    return (if negative then -n else n, rest)
where
  /-- Digits of a base. -/
  based (base : Nat) (s : List Char) : Option (Int × List Char) := do
    let (digits, rest) ← digits? (fun c => (Hexadecimal.value? c).any (· < base)) s
    return (ofDigits base digits, rest)

/-- The least integer that 64 bits hold. -/
def least : Int := -9223372036854775808

/-- The greatest integer that 64 bits hold. -/
def greatest : Int := 9223372036854775807

/-- The integer at the front of a text; it has to fit into 64 bits with its sign. -/
def splitInteger? (s : List Char) : Option (Int × List Char) := do
  let (n, rest) ← splitUnbounded? s
  guard (least ≤ n ∧ n ≤ greatest)
  return (n, rest)

end Campaign.Toml.Number
