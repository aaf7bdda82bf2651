import Campaign.Proofs.Binary64.Special
import Campaign.Proofs.Sample.Rounding

/-!
# Rounded figures are accurate

A figure is rounded twice: its number to the nearest decimal with a fixed number of places, then
that decimal to the nearest double. Both steps are monotone and odd, and neither moves a number
farther than it has to. The figure is a double itself, so the second step does not lead farther away
from the decimal than the first has led from the figure, however large or small the units are.

* `atPlaces`: the decimal with a number of places that is nearest to a real number.

## Main statements

* `hasValue_roundPlaces`: rounding a double is rounding its number, twice;
* `roundPlaces_mono`, `roundPlaces_neg`, `abs_roundPlaces_sub_le`: order, sign and distance;
* `Rounded.of_accurate`: rounded figures.
-/

namespace Campaign

open Binary64

namespace Decimal

/-! ### The nearest decimal -/

/-- The decimal with `places` places that is nearest to a number, a half going to the even digit. -/
noncomputable def atPlaces (places : ℕ) (r : ℝ) : ℝ :=
  roundEven (r * (10 ^ places : ℕ)) / (10 ^ places : ℕ)

theorem atPlaces_eq (places : ℕ) (r : ℝ) :
    atPlaces places r = roundEven (r * 10 ^ places) / 10 ^ places := by
  unfold atPlaces
  push_cast
  rfl

section

variable {places : ℕ} {r t : ℝ}

theorem atPlaces_mono (h : r ≤ t) : atPlaces places r ≤ atPlaces places t := by
  rw [atPlaces_eq, atPlaces_eq]
  gcongr
  apply roundEven_mono
  gcongr

theorem atPlaces_neg (r : ℝ) : atPlaces places (-r) = -atPlaces places r := by
  rw [atPlaces_eq, atPlaces_eq, neg_mul, roundEven_neg, Int.cast_neg, neg_div]

theorem abs_atPlaces_sub_le (places : ℕ) (r : ℝ) :
    |atPlaces places r - r| ≤ 10 ^ (-places : ℤ) / 2 := by
  have hpower : (0 : ℝ) < 10 ^ places := by positivity
  have hscale : atPlaces places r - r =
      -(r * 10 ^ places - roundEven (r * 10 ^ places)) / 10 ^ places := by
    rw [atPlaces_eq]
    field_simp
    ring
  rw [hscale, abs_div, abs_neg, abs_of_pos hpower, zpow_neg, zpow_natCast, div_le_iff₀ hpower]
  have hhalf := abs_sub_roundEven_le (r * 10 ^ places)
  field_simp
  linarith

end

/-! ### The nearest double -/

/-- A half goes to the even quotient. -/
theorem even_roundDiv {num den : ℕ} (hden : 0 < den)
    (h : 2 * num + den = 2 * (den * roundDiv num den .toEven) ∨
      2 * num = 2 * (den * roundDiv num den .toEven) + den) :
    roundDiv num den .toEven % 2 = 0 := by
  have hsplit := Nat.div_add_mod num den
  have hsmall := Nat.mod_lt num hden
  unfold roundDiv at h ⊢
  generalize num / den = k at *
  generalize num % den = e at *
  have hnext : den * (k + 1) = den * k + den := Nat.mul_succ ..
  cases hcompare : compare (2 * e) den with
  | lt =>
    have hlt := Nat.compare_eq_lt.1 hcompare
    simp only [hcompare] at h
    omega
  | gt =>
    have hgt := Nat.compare_eq_gt.1 hcompare
    simp only [hcompare] at h
    omega
  | eq =>
    dsimp only
    omega

theorem roundDiv_eq_roundEven (m : ℕ) (q p : ℤ) :
    (roundDiv (scaled m q p).1 (scaled m q p).2 .toEven : ℤ) =
      roundEven (m * 2 ^ q * 10 ^ p) := by
  have hnear := abs_roundDiv_sub_le m q p .toEven
  rw [abs_sub_comm] at hnear
  symm
  apply roundEven_eq
  · exact_mod_cast hnear
  · intro hhalf
    have hden := scaled_pos m q p
    have hd : (0 : ℝ) < (scaled m q p).2 := by exact_mod_cast hden
    rw [← scaled_div, Int.cast_natCast] at hhalf
    have heven := @even_roundDiv (scaled m q p).1 _ hden
    generalize (scaled m q p).1 = num at *
    generalize (scaled m q p).2 = den at *
    generalize roundDiv num den .toEven = n at *
    suffices hsides : 2 * num + den = 2 * (den * n) ∨ 2 * num = 2 * (den * n) + den by
      have := heven hsides
      omega
    rcases (abs_eq (by norm_num)).1 hhalf with h | h
    · right
      have hreal : 2 * (num : ℝ) = 2 * (den * n) + den := by
        field_simp at h
        linarith
      exact_mod_cast hreal
    · left
      have hreal : 2 * (num : ℝ) + den = 2 * (den * n) := by
        field_simp at h
        linarith
      exact_mod_cast hreal

/-- A decimal read with the other sign is the negated double. -/
theorem toFloat_not (negative : Bool) (d : Decimal) :
    toFloat (!negative) d = -toFloat negative d := by
  cases negative with
  | false => rfl
  | true => exact (Binary64.neg_neg _).symm

section

variable {places : ℕ} {x y : Float} {r : ℝ}

/-- **Rounding a double to decimal places** is rounding its number to a decimal and that decimal to
a double. -/
theorem hasValue_roundPlaces (places : ℕ) (hx : HasValue x r) :
    HasValue (roundPlaces places x) (nearest (atPlaces places r)) := by
  obtain ⟨negative, m, q, hvalue⟩ := exists_value_of_isFinite hx.isFinite
  have hread := hasValue_toFloat negative (abs_nearest_roundDiv_lt hvalue places)
  rw [← roundPlaces_eq hvalue] at hread
  have hmagnitude : toReal ⟨roundDiv (scaled m q places).1 (scaled m q places).2 .toEven,
      -(places : ℤ)⟩ = atPlaces places (m * 2 ^ q) := by
    have hinteger := roundDiv_eq_roundEven m q places
    rw [toReal, atPlaces_eq, ← zpow_natCast, ← hinteger, Int.cast_natCast, zpow_neg, div_eq_mul_inv]
  have hnumber := toReal_of_value hvalue
  rw [hx.toReal_eq] at hnumber
  rw [hmagnitude] at hread
  rw [hnumber]
  cases negative with
  | false => exact hread
  | true => simpa only [if_true, atPlaces_neg, nearest_neg] using hread

theorem roundPlaces_mono (hx : x.isFinite = true) (hy : y.isFinite = true) (h : x ≤ y) :
    roundPlaces places x ≤ roundPlaces places y := by
  have hvaluex := hasValue_toReal hx
  have hvaluey := hasValue_toReal hy
  rw [hvaluex.le_iff hvaluey] at h
  rw [(hasValue_roundPlaces places hvaluex).le_iff (hasValue_roundPlaces places hvaluey)]
  exact nearest_mono (atPlaces_mono h)

theorem roundPlaces_neg (hx : x.isFinite = true) :
    roundPlaces places (-x) = -roundPlaces places x := by
  obtain ⟨negative, m, q, hvalue⟩ := exists_value_of_isFinite hx
  rw [roundPlaces_eq (value_neg hvalue), roundPlaces_eq hvalue, toFloat_not]

theorem abs_roundPlaces_sub_le (hx : HasValue x r) :
    |Binary64.toReal (roundPlaces places x) - r| ≤ 10 ^ (-places : ℤ) := by
  rw [(hasValue_roundPlaces places hx).toReal_eq]
  have hdecimal := abs_atPlaces_sub_le places r
  -- the double itself is one of those that the decimal could have been rounded to
  have hdouble := abs_nearest_sub_le_abs_sub (x := atPlaces places r) hx.onGrid
  rw [abs_sub_comm r] at hdouble
  calc |nearest (atPlaces places r) - r|
      ≤ |nearest (atPlaces places r) - atPlaces places r| + |atPlaces places r - r| :=
        abs_sub_le _ _ _
    _ ≤ 10 ^ (-places : ℤ) / 2 + 10 ^ (-places : ℤ) / 2 :=
        add_le_add (hdouble.trans hdecimal) hdecimal
    _ = 10 ^ (-places : ℤ) := add_halves _

end

end Decimal

/-! ### Rounded figures -/

/-- **Figures that are rounded** keep their order, and a figure with the other sign is rounded to
the number with the other sign, in every bit. None overflows, and none is moved by more than one
unit in the last place that is kept. -/
theorem Rounded.of_accurate {a b : Float} {p : ℕ} (ha : a.isFinite = true)
    (hb : b.isFinite = true) (hp : p ≤ 17) :
    (a ≤ b → (Rounded.of a p).value ≤ (Rounded.of b p).value) ∧
      (Rounded.of (-a) p).value = -(Rounded.of a p).value ∧
      (Rounded.of a p).value.isFinite = true ∧
      |toReal (Rounded.of a p).value - toReal a| ≤ 10 ^ (-p : ℤ) := by
  have hvalue (x : Float) : (Rounded.of x p).value = Decimal.roundPlaces p x := by
    have hplaces : min p maxPrecision = p := Nat.min_eq_left hp
    simp only [Rounded.of, hplaces]
  simp only [hvalue]
  refine ⟨?_, ?_, ?_, ?_⟩
  · exact Decimal.roundPlaces_mono ha hb
  · exact Decimal.roundPlaces_neg ha
  · exact Decimal.isFinite_roundPlaces ha p
  · exact Decimal.abs_roundPlaces_sub_le (hasValue_toReal ha)

/-- A carry through all digits, from nines to ten. -/
theorem Rounded.of_accurate_of_nines :
    (9.9949 : Float).isFinite = true ∧ (9.9951 : Float).isFinite = true ∧ 2 ≤ 17 ∧
      (9.9949 : Float) ≤ 9.9951 ∧ Rounded.of 9.9949 2 = ⟨9.99, 2⟩ ∧
      Rounded.of 9.9951 2 = ⟨10, 2⟩ ∧ (9.99 : Float) ≤ 10 ∧
      (Rounded.of (-9.9949) 2).value = -9.99 ∧ (9.99 : Float).isFinite = true ∧
      |toReal 9.99 - toReal 9.9949| ≤ 10 ^ (-2 : ℤ) := by
  have ha : (9.9949 : Float).isFinite = true := by decide
  have hb : (9.9951 : Float).isFinite = true := by decide
  have hle : (9.9949 : Float) ≤ 9.9951 := by decide +kernel
  have hlow : Rounded.of 9.9949 2 = ⟨9.99, 2⟩ := by decide
  have hhigh : Rounded.of 9.9951 2 = ⟨10, 2⟩ := by decide
  obtain ⟨hmono, hneg, hfin, hnear⟩ := Rounded.of_accurate (p := 2) ha hb (by decide)
  rw [hlow] at hmono hneg hfin hnear
  rw [hhigh] at hmono
  exact ⟨ha, hb, by decide, hle, hlow, hhigh, hmono hle, hneg, hfin, hnear⟩

end Campaign
