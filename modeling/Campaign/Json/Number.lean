import Campaign.Decimal.Layout
import Campaign.Decimal.Read

/-!
# Numbers in JSON

* `Number.split?`: the number at the front of a text;
* `Number.float?`: the double that a number stands for;
* `Number.nat?`: the natural number that a number stands for;
* `Number.style`: how doubles are written.

Reading a double keeps as many digits as a 64-bit word holds and then scales by powers of ten, with
a rounding in each step; so a long number may be read as a neighbour of the nearest double.

## Main statements

* `split?_append`: nothing is lost when a number is split off.
-/

namespace Campaign.Json

/-- A number as it is written, in parts. -/
structure Number where
  negative : Bool
  /-- The digits in front of the point. -/
  whole : List Char
  /-- The digits after the point; none where there is no point. -/
  fraction : List Char
  /-- The exponent with its mark and sign; empty where there is none. -/
  exponent : List Char
  deriving DecidableEq, Repr

namespace Number

/-- A number as written. -/
def text (n : Number) : List Char :=
  (if n.negative then ['-'] else []) ++ n.whole ++
    (if n.fraction.isEmpty then [] else '.' :: n.fraction) ++ n.exponent

/-! ### Splitting a number off -/

/-- Digits without a needless zero in front. -/
def splitWhole? (s : List Char) : Option (List Char × List Char) :=
  let (digits, rest) := Decimal.splitDigits s
  match digits with
  | [] => none
  | ['0'] => some (digits, rest)
  | '0' :: _ => none
  | _ => some (digits, rest)

/-- Digits after a point, if there is a point. -/
def splitFraction? : List Char → Option (List Char × List Char)
  | '.' :: s =>
    let (digits, rest) := Decimal.splitDigits s
    if digits.isEmpty then none else some (digits, rest)
  | s => some ([], s)

/-- The sign of an exponent as written. -/
def splitExponentSign : List Char → List Char × List Char
  | '-' :: s => (['-'], s)
  | '+' :: s => (['+'], s)
  | s => ([], s)

/-- An exponent, if there is its mark. -/
def splitExponent? : List Char → Option (List Char × List Char)
  | [] => some ([], [])
  | mark :: s =>
    if mark = 'e' ∨ mark = 'E' then
      let (sign, s) := splitExponentSign s
      let (digits, rest) := Decimal.splitDigits s
      if digits.isEmpty then none else some (mark :: sign ++ digits, rest)
    else some ([], mark :: s)

/-- The number at the front of a text, and what follows it. -/
def split? (s : List Char) : Option (Number × List Char) := do
  let (negative, s) := match s with
    | '-' :: s => (true, s)
    | s => (false, s)
  let (whole, s) ← splitWhole? s
  let (fraction, s) ← splitFraction? s
  let (exponent, s) ← splitExponent? s
  return (⟨negative, whole, fraction, exponent⟩, s)

/-- A whole text as a number. -/
def ofText? (s : List Char) : Option Number :=
  match split? s with
  | some (n, []) => some n
  | _ => none

theorem splitWhole?_append {s ds rest : List Char} (h : splitWhole? s = some (ds, rest)) :
    ds ++ rest = s := by
  have whole := Decimal.splitDigits_append s
  simp only [splitWhole?] at h
  split at h
  · simp_all
  · simp_all
    grind
  · simp_all
  · simp_all

theorem splitFraction?_append {s ds rest : List Char} (h : splitFraction? s = some (ds, rest)) :
    (if ds.isEmpty then [] else '.' :: ds) ++ rest = s := by
  unfold splitFraction? at h
  split at h
  · rename_i t
    have whole := Decimal.splitDigits_append t
    split at h
    simp_all
    grind
  · simp_all

theorem splitExponentSign_append (s : List Char) :
    (splitExponentSign s).1 ++ (splitExponentSign s).2 = s := by
  unfold splitExponentSign; split <;> rfl

theorem splitExponent?_append {s e rest : List Char} (h : splitExponent? s = some (e, rest)) :
    e ++ rest = s := by
  unfold splitExponent? at h
  split at h
  · simp_all
  · rename_i mark t
    have sign := splitExponentSign_append t
    have digits := Decimal.splitDigits_append (splitExponentSign t).2
    split at h
    · split at h
      simp_all
      grind
    · simp_all

theorem split?_append {s rest : List Char} {n : Number} (h : split? s = some (n, rest)) :
    n.text ++ rest = s := by
  unfold split? at h
  split at h
  rename_i negative t hs
  have sign : (if negative then ['-'] else []) ++ t = s := by
    split at hs <;> simp_all
  simp only [Option.bind_eq_bind, Option.bind_eq_some_iff] at h
  obtain ⟨⟨whole, t₁⟩, h₁, ⟨fraction, t₂⟩, h₂, ⟨e, t₃⟩, h₃, h₄⟩ := h
  cases h₄
  dsimp only at *
  rw [← sign, ← splitWhole?_append h₁, ← splitFraction?_append h₂, ← splitExponent?_append h₃]
  simp [text]

/-! ### Doubles -/

/-- The greatest 64-bit word. -/
def maxWord : Nat := 18446744073709551615

/-- Reads digits on after a word as long as a word can hold them: the word, and the digits that
did not fit. -/
def fill : Nat → List Char → Nat × List Char
  | word, [] => (word, [])
  | word, c :: s =>
    let next := 10 * word + Decimal.digitValue c
    if next ≤ maxWord then fill next s else (word, c :: s)

/-- The digits of a number that a word holds, with the power of ten that makes up for the rest. -/
def filled (n : Number) : Nat × Int :=
  let (word, excess) := fill 0 n.whole
  let (word, dropped) := fill word n.fraction
  (word, excess.length - (n.fraction.length - dropped.length : Nat))

/-- The power of ten of an exponent as written. -/
def exponentValue (n : Number) : Int := (Decimal.exponent? n.exponent).getD 0

/-- The double nearest to a power of ten. -/
def powerOfTen (k : Nat) : Float := Decimal.toFloat false ⟨1, k⟩

/-- A double times a power of ten, in steps that doubles can hold; none if it is out of range. -/
def scale? (x : Float) (e : Int) : Option Float :=
  if e.natAbs ≤ 308 then
    if e < 0 then some (x / powerOfTen e.natAbs)
    else
      let y := x * powerOfTen e.natAbs
      if y.isInf then none else some y
  else if x == 0 then some x
  else if 0 ≤ e then none
  else scale? (x / 1e308) (e + 308)
termination_by e.natAbs
decreasing_by omega

/-- The double that a number stands for; none if it is out of range. -/
def float? (n : Number) : Option Float := do
  let (word, e) := n.filled
  let x ← scale? word.toFloat (e + n.exponentValue)
  return if n.negative then -x else x

/-- The number that a whole number without sign and exponent stands for. -/
def nat? (n : Number) : Option Nat :=
  if n.negative || !n.fraction.isEmpty || !n.exponent.isEmpty then none
  else some (Decimal.ofDigits n.whole)

/-- At least one digit after the point; an exponent with its sign from `10^16` on and below
`10^-5`. What is not finite is the word for nothing. -/
def style : Decimal.Style where
  positional := some (-5, 16)
  keepsPoint := true
  plusExponent := true
  tie := .toEven
  nan := "null"
  infinity := "null"
  unsignedSpecials := true

end Number

end Campaign.Json
