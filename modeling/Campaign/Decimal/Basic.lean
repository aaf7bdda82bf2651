import Campaign.Binary64

/-!
# Decimal numbers and rounding

* `Decimal`: a coefficient and a power of ten;
* `Decimal.toFloat`: the double nearest to a signed decimal;
* `roundDiv`: a quotient rounded to a whole number, a half going as a `Tie` says;
* `roundPlaces`, `roundDigits`: a double rounded to a number of decimal places, or of significant
  digits, starting from its exact value.

## Main statements

* `roundDiv_near`: a rounded quotient is within half a unit of the exact one.
* `roundDiv_mul`: a quotient that is whole stays as it is.
* `pow_le_of_digitCount`: the number of digits bounds a number from below.
-/

namespace Campaign

/-- The number `coefficient · 10^exponent`. -/
structure Decimal where
  coefficient : Nat
  exponent : Int
  deriving DecidableEq, Repr

namespace Decimal

/-- The double nearest to the decimal with the given sign, a half going to the even mantissa. -/
def toFloat (negative : Bool) (d : Decimal) : Float :=
  let magnitude := Float.ofScientific d.coefficient (d.exponent < 0) d.exponent.natAbs
  if negative then -magnitude else magnitude

/-! ### Rounded quotients -/

/-- Where a half goes: to the even neighbour, or up. -/
inductive Tie where
  | toEven
  | up
  deriving DecidableEq, Repr

/-- The whole number nearest to `num / den`. -/
def roundDiv (num den : Nat) (tie : Tie) : Nat :=
  let quotient := num / den
  match compare (2 * (num % den)) den, tie with
  | .lt, _ => quotient
  | .gt, _ => quotient + 1
  | .eq, .up => quotient + 1
  | .eq, .toEven => quotient + quotient % 2

theorem roundDiv_near (num den : Nat) (tie : Tie) (h : 0 < den) :
    2 * (den * roundDiv num den tie) ≤ 2 * num + den ∧
      2 * num ≤ 2 * (den * roundDiv num den tie) + den := by
  have split := Nat.div_add_mod num den
  have small := Nat.mod_lt num h
  simp only [roundDiv]
  generalize num / den = q at *
  generalize num % den = r at *
  have next : den * (q + 1) = den * q + den := Nat.mul_succ ..
  have parity : q % 2 = 0 ∨ q % 2 = 1 := by omega
  cases hc : compare (2 * r) den with
  | lt =>
    have := Nat.compare_eq_lt.1 hc
    dsimp only; omega
  | gt =>
    have := Nat.compare_eq_gt.1 hc
    dsimp only; omega
  | eq =>
    have := Nat.compare_eq_eq.1 hc
    cases tie
    · rcases parity with p | p <;> simp only [p, Nat.add_zero] <;> omega
    · dsimp only; omega

theorem roundDiv_mul (n den : Nat) (tie : Tie) (h : 0 < den) :
    roundDiv (n * den) den tie = n := by
  simp only [roundDiv, Nat.mul_mod_left, Nat.mul_zero, Nat.mul_div_cancel _ h]
  rw [Nat.compare_eq_lt.2 h]

/-! ### Rounded doubles -/

/-- `m · 2^q · 10^p` as a quotient of natural numbers. -/
def scaled (m : Nat) (q p : Int) : Nat × Nat :=
  (m * Nat.pow 2 q.toNat * Nat.pow 10 p.toNat, Nat.pow 2 (-q).toNat * Nat.pow 10 (-p).toNat)

/-- The double nearest to the exact value of `x` rounded to `places` decimal places, a half going
to the even digit. The sign of zero is kept, and so are values that are not finite. -/
def roundPlaces (places : Nat) (x : Float) : Float :=
  match Binary64.value x with
  | .finite negative m q =>
    let (num, den) := scaled m q places
    toFloat negative ⟨roundDiv num den .toEven, -(places : Int)⟩
  | _ => x

/-- The number of decimal digits of `n`, if it has more than `k`. -/
def digitsFrom (n k : Nat) : Nat :=
  if n < Nat.pow 10 (k + 1) then k + 1 else digitsFrom n (k + 1)
termination_by n - Nat.pow 10 k
decreasing_by
  have : Nat.pow 10 k < Nat.pow 10 (k + 1) := Nat.pow_lt_pow_succ (by decide)
  omega

/-- The number of decimal digits of a natural number; it is estimated from the number of binary
digits, of which each is worth a little more than `1233 / 4096` decimal ones. -/
def digitCount (n : Nat) : Nat :=
  let k := Nat.log2 n * 1233 / 4096
  digitsFrom n (if Nat.pow 10 k ≤ n then k else 0)

theorem digitsFrom_spec (n k : Nat) :
    n < Nat.pow 10 (digitsFrom n k) ∧
      (Nat.pow 10 k ≤ n → Nat.pow 10 (digitsFrom n k - 1) ≤ n) := by
  fun_induction digitsFrom n k with
  | case1 k h => exact ⟨h, id⟩
  | case2 k h ih => exact ⟨ih.1, fun _ => ih.2 (Nat.not_lt.1 h)⟩

theorem pow_le_of_digitCount {n : Nat} (h : 0 < n) : Nat.pow 10 (digitCount n - 1) ≤ n := by
  refine (digitsFrom_spec n _).2 ?_
  split
  · assumption
  · exact h

/-- The place `k` of the leading digit of a positive double: `10^(k-1) ≤ m · 2^q < 10^k`. The
value is scaled by `10^340` first, so that its whole part is not zero. -/
def leadingPlace (m : Nat) (q : Int) : Int :=
  let (num, den) := scaled m q 340
  (digitCount (num / den) : Int) - 340

/-- The double nearest to the exact value of `x` rounded to `digits` significant digits, a half
going to the even digit. -/
def roundDigits (digits : Nat) (x : Float) : Float :=
  match Binary64.value x with
  | .finite negative m q =>
    if m = 0 then x
    else
      let place := leadingPlace m q - digits
      let (num, den) := scaled m q (-place)
      toFloat negative ⟨roundDiv num den .toEven, place⟩
  | _ => x

end Decimal

end Campaign
