import Campaign.Decimal.Shortest

/-!
# Written numbers

A `Style` fixes how the shortest digits of a double are laid out as text: which numbers are
written positionally, whether a whole number keeps a point, how exponents look, and the texts of
the values that are not finite. Each format that the library writes has one style.

* `Style.render`: the text of a double;
* `Decimal.layout`: the text of a digit string with the point at a given place.
-/

namespace Campaign.Decimal

/-- How a format writes numbers. -/
structure Style where
  /-- The leading digit's powers of ten, from the first to below the second, that are written
  without an exponent; `none` stands for all. -/
  positional : Option (Int × Int)
  /-- Whether a whole number ends in `.0`. -/
  keepsPoint : Bool
  /-- Whether a positive exponent has a plus sign. -/
  plusExponent : Bool
  /-- Which of two equally near digit strings is written. -/
  tie : Tie
  /-- The text of not-a-number. -/
  nan : String
  /-- The text of the infinities, without the sign. -/
  infinity : String
  /-- Whether not-a-number and the infinities are one text, without a sign. -/
  unsignedSpecials : Bool

/-- Digits with the point after the first `place` of them; zeros fill the gap on either side. -/
def positional (digits : List Char) (place : Int) (keepsPoint : Bool) : List Char :=
  if place ≤ 0 then
    '0' :: '.' :: List.replicate (-place).toNat '0' ++ digits
  else if place.toNat < digits.length then
    digits.take place.toNat ++ '.' :: digits.drop place.toNat
  else
    digits ++ List.replicate (place.toNat - digits.length) '0' ++
      (if keepsPoint then ['.', '0'] else [])

/-- Digits with the point after the first and an exponent; a lone digit has no point. -/
def scientific (digits : List Char) (exponent : Int) (plusExponent : Bool) : List Char :=
  digits.take 1 ++ (if digits.length ≤ 1 then [] else '.' :: digits.drop 1) ++
    'e' :: (if exponent < 0 then ['-'] else if plusExponent then ['+'] else []) ++
    Nat.toDigits 10 exponent.natAbs

namespace Style

/-- The text of a decimal without its sign. -/
def magnitude (s : Style) (d : Decimal) : List Char :=
  let digits := Nat.toDigits 10 d.coefficient
  let place := digits.length + d.exponent
  match s.positional with
  | none => Decimal.positional digits place s.keepsPoint
  | some (first, below) =>
    if d.coefficient = 0 ∨ (first ≤ place - 1 ∧ place - 1 < below) then
      Decimal.positional digits place s.keepsPoint
    else scientific digits (place - 1) s.plusExponent

/-- The text of a double. -/
def render (s : Style) (x : Float) : String :=
  match Binary64.value x with
  | .nan => s.nan
  | .infinite negative => if negative && !s.unsignedSpecials then "-" ++ s.infinity else s.infinity
  | .finite negative m q =>
    String.ofList ((if negative then ['-'] else []) ++ s.magnitude (shortest m q s.tie))

end Style

/-- All digits in front of the point, no point after a whole number. -/
def Style.plain : Style where
  positional := none
  keepsPoint := false
  plusExponent := false
  tie := .up
  nan := "NaN"
  infinity := "inf"
  unsignedSpecials := false

/-- At least one digit after the point; an exponent from `10^16` on and below `10^-4`. -/
def Style.figure : Style where
  positional := some (-4, 16)
  keepsPoint := true
  plusExponent := false
  tie := .up
  nan := "NaN"
  infinity := "inf"
  unsignedSpecials := false

end Campaign.Decimal
