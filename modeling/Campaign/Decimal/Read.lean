import Campaign.Decimal.Basic

/-!
# Reading numbers

* `splitDigits`: the leading digits of a text and the rest;
* `ofDigits`: the value of a digit string;
* `readFloat?`: a whole text as a double: an optional sign, then digits with at most one point
  among or around them and an optional exponent, or one of the words for infinity and
  not-a-number in letters of any case.

## Main statements

* `splitDigits_append`: nothing is lost when the digits are split off.
* `ofDigits_toDigits`: reading the digits of a number gives the number.
-/

namespace Campaign.Decimal

/-- The leading decimal digits and what follows them. -/
def splitDigits (s : List Char) : List Char × List Char :=
  (s.takeWhile Char.isDigit, s.dropWhile Char.isDigit)

theorem splitDigits_append (s : List Char) : (splitDigits s).1 ++ (splitDigits s).2 = s :=
  List.takeWhile_append_dropWhile

/-- The value of a digit character. -/
def digitValue (c : Char) : Nat := c.toNat - '0'.toNat

/-- The number that a digit string writes. -/
def ofDigits (ds : List Char) : Nat := ds.foldl (fun n c => 10 * n + digitValue c) 0

theorem ofDigits_append_singleton (ds : List Char) (c : Char) :
    ofDigits (ds ++ [c]) = 10 * ofDigits ds + digitValue c := by
  simp [ofDigits, List.foldl_append]

theorem digitValue_digitChar {n : Nat} (h : n < 10) : digitValue n.digitChar = n := by
  have : ∀ k : Fin 10, digitValue k.1.digitChar = k.1 := by decide
  exact this ⟨n, h⟩

theorem ofDigits_toDigits (n : Nat) : ofDigits (Nat.toDigits 10 n) = n := by
  induction n using Nat.strongRecOn with
  | _ n ih =>
    rw [Nat.toDigits_eq_if (by decide)]
    split
    · simp [ofDigits, digitValue_digitChar, *]
    · rw [ofDigits_append_singleton, ih _ (by omega),
        digitValue_digitChar (Nat.mod_lt _ (by decide))]
      omega

/-- A sign, if there is one: whether it is a minus, and the rest. -/
def splitSign : List Char → Bool × List Char
  | '-' :: s => (true, s)
  | '+' :: s => (false, s)
  | s => (false, s)

/-- An exponent that fills the whole text: `e`, an optional sign and digits; no text is zero. -/
def exponent? : List Char → Option Int
  | [] => some 0
  | c :: s =>
    if c = 'e' ∨ c = 'E' then
      let (negative, digits) := splitSign s
      if digits.isEmpty || !digits.all Char.isDigit then none
      else some (if negative then -(ofDigits digits : Int) else ofDigits digits)
    else none

/-- Digits around at most one point, then an exponent. -/
def magnitude? (s : List Char) : Option Decimal := do
  let (whole, rest) := splitDigits s
  let (fraction, rest) := match rest with
    | '.' :: r => splitDigits r
    | r => ([], r)
  guard (!(whole.isEmpty && fraction.isEmpty))
  let e ← exponent? rest
  return ⟨ofDigits (whole ++ fraction), e - fraction.length⟩

/-- A whole text as a double. -/
def readFloat? (s : List Char) : Option Float :=
  let (negative, rest) := splitSign s
  let word := String.ofList (rest.map Char.toLower)
  if word = "inf" ∨ word = "infinity" then
    some (if negative then -(1.0 / 0.0) else 1.0 / 0.0)
  else if word = "nan" then some (0.0 / 0.0)
  else (magnitude? rest).map (toFloat negative)

end Campaign.Decimal
