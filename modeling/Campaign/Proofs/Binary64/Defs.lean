import Campaign.Binary64
import Mathlib

/-!
# Doubles and real numbers

A finite double is a multiple `m · 2^e` of a power of two with `|m| ≤ 2^53` and `-1074 ≤ e`. These
points, with no bound on the exponent, are the grid to which real numbers are rounded.

* `roundEven`: the nearest integer;
* `OnGrid`, `unitExponent`, `nearest`: the points of the grid, the exponent of the grid around a
  number, and the nearest grid point;
* `real`, `Canonical`: the number of a mantissa and an exponent, and which of them a double can hold;
* `Cut`: what a mantissa with residual bits says about the number it was cut from;
* `toReal`, `HasValue`: the number that a double stands for;
* `growth`, `greatest`: the relative error of a rounding, and the greatest double;
* `lastPlace`, `IsMultiple`: the unit in the last place of a number, and the multiples of a unit;
* `overflow`: a rounded number as an extended real number.
-/

namespace Campaign.Binary64

open Float.Model (UnpackedFloat)
open Float.Model.UnpackedFloat

/-! ### The grid -/

/-- The integer nearest to a real number; of two it is the even one. -/
noncomputable def roundEven (x : ℝ) : ℤ :=
  if x - ⌊x⌋ < 1 / 2 ∨ (x - ⌊x⌋ = 1 / 2 ∧ ⌊x⌋ % 2 = 0) then ⌊x⌋ else ⌊x⌋ + 1

/-- The points of the grid; the exponent has no upper bound. -/
def OnGrid (r : ℝ) : Prop := ∃ m e : ℤ, |m| ≤ 2 ^ 53 ∧ -1074 ≤ e ∧ r = m * 2 ^ e

/-- The exponent of the unit in which numbers of the magnitude of `x` are counted. -/
noncomputable def unitExponent (x : ℝ) : ℤ := max (Int.log 2 |x| - 52) (-1074)

/-- The point of the grid nearest to a real number. -/
noncomputable def nearest (x : ℝ) : ℝ := roundEven (x / 2 ^ unitExponent x) * 2 ^ unitExponent x

/-- By how much a rounding can make a number of at least one larger. -/
noncomputable def growth : ℝ := 1 + 1 / 2 ^ 53

/-- The greatest finite double. -/
noncomputable def greatest : ℝ := (2 ^ 53 - 1) * 2 ^ 971

/-- The exponent of the unit in the last place; that of zero is the least one. -/
noncomputable def lastExponent (x : ℝ) : ℤ := if x = 0 then -1074 else unitExponent x

/-- The unit in the last place of a point of the grid. -/
noncomputable def lastPlace (x : ℝ) : ℝ := 2 ^ lastExponent x

/-- The multiples of a power of two. -/
def IsMultiple (k : ℤ) (r : ℝ) : Prop := ∃ n : ℤ, r = n * 2 ^ k

/-- A rounded number, or the infinity of its sign if it is beyond the doubles. -/
noncomputable def overflow (r : ℝ) : EReal :=
  if 2 ^ 1024 ≤ r then ⊤ else if r ≤ -2 ^ 1024 then ⊥ else r

/-! ### Unpacked forms -/

/-- A magnitude with a sign. -/
def signed (s : Sign) (r : ℝ) : ℝ :=
  match s with
  | .negative => -r
  | .positive => r

/-- The number of a finite form, and zero for the others. -/
noncomputable def real : UnpackedFloat → ℝ
  | .finite s m e _ => signed s (m * 2 ^ e)
  | _ => 0

/-- The finite forms whose exponent is the one that belongs to their magnitude. -/
def Canonical : UnpackedFloat → Prop
  | .finite _ m e _ => m < 2 ^ 53 ∧ -1074 ≤ e ∧ (2 ^ 52 ≤ m ∨ e = -1074)
  | .zero _ => True
  | _ => False

/-- What a mantissa and its bits say about the number that was cut. -/
def Cut (em : ExtendedMantissa) (x : ℝ) : Prop :=
  match em.roundBit, em.stickyBit with
  | false, false => x = em.mantissa
  | false, true => em.mantissa < x ∧ x < em.mantissa + 1 / 2
  | true, false => x = em.mantissa + 1 / 2
  | true, true => em.mantissa + 1 / 2 < x ∧ x < em.mantissa + 1

/-! ### Doubles -/

/-- The number that a finite double stands for, and zero for the others. -/
noncomputable def toReal (x : Float) : ℝ :=
  match value x with
  | .finite negative m q => if negative then -(m * 2 ^ q) else m * 2 ^ q
  | _ => 0

/-- A double is finite and stands for a number. -/
structure HasValue (x : Float) (r : ℝ) : Prop where
  isFinite : x.isFinite = true
  toReal_eq : toReal x = r

end Campaign.Binary64
