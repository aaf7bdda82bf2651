import Campaign.Proofs.Decimal.Plain
import Campaign.Proofs.Sample.Accuracy

/-!
# The text of a rounded figure

A rounded figure is written with the shortest digits that read as its value. The text has an
exponent where that is the usual way to write a double, and the number of decimal places to which
the figure was rounded has no say in it. Few places keep small figures from having an exponent: what
does not vanish has at least one unit in the last place. Large figures have one whatever is kept.

## Main statements

* `abs_nearest_atPlaces_lt`, `le_abs_nearest_atPlaces`: rounding does not lead out of the numbers
  that are written around a point;
* `Rounded.isPlain_text_iff`: when a figure is written with a point and without an exponent.
-/

namespace Campaign

open Binary64

namespace Decimal

section

variable {places : ℕ} {r : ℝ}

/-- A whole number has all its places. -/
theorem atPlaces_natCast (places n : ℕ) : atPlaces places n = n := by
  have hscale : (n : ℝ) * 10 ^ places = ((n * 10 ^ places : ℕ) : ℤ) := by
    push_cast
    rfl
  rw [atPlaces_eq, hscale, roundEven_intCast]
  push_cast
  field_simp

theorem abs_atPlaces (places : ℕ) (r : ℝ) : |atPlaces places r| = atPlaces places |r| := by
  have hnonneg {t : ℝ} (h : 0 ≤ t) : 0 ≤ atPlaces places t := by
    have hmono : atPlaces places (0 : ℕ) ≤ atPlaces places t :=
      atPlaces_mono (by exact_mod_cast h)
    rwa [atPlaces_natCast, Nat.cast_zero] at hmono
  rcases le_total 0 r with h | h
  · rw [abs_of_nonneg h, abs_of_nonneg (hnonneg h)]
  · have hneg := hnonneg (neg_nonneg.2 h)
    rw [abs_of_nonpos h, ← abs_of_nonneg hneg, atPlaces_neg, abs_neg]

/-- A decimal that is not zero has at least one unit in its last place. -/
theorem atPlaces_eq_zero_or (places : ℕ) (r : ℝ) :
    atPlaces places r = 0 ∨ 10 ^ (-places : ℤ) ≤ |atPlaces places r| := by
  rw [atPlaces_eq]
  by_cases hzero : roundEven (r * 10 ^ places) = 0
  · left
    rw [hzero, Int.cast_zero, zero_div]
  · right
    have hone : (1 : ℝ) ≤ |(roundEven (r * 10 ^ places) : ℝ)| := by
      exact_mod_cast Int.one_le_abs hzero
    have hpower : (0 : ℝ) < 10 ^ places := by positivity
    rw [abs_div, abs_of_pos hpower, zpow_neg, zpow_natCast, inv_eq_one_div]
    gcongr

/-- Rounding does not lead up to `10^16`, below which not all whole numbers are doubles. -/
theorem abs_nearest_atPlaces_lt (hr : OnGrid r) (h : |r| < 10 ^ 16) :
    |nearest (atPlaces places r)| < 10 ^ 16 := by
  rw [abs_nearest, abs_atPlaces]
  have hgrid : OnGrid |r| := by
    rcases abs_choice r with e | e <;> rw [e]
    · exact hr
    · exact hr.neg
  rcases le_total |r| (2 ^ 53) with hsmall | hlarge
  · have hle : atPlaces places |r| ≤ atPlaces places (2 ^ 53 : ℕ) :=
      atPlaces_mono (by exact_mod_cast hsmall)
    rw [atPlaces_natCast] at hle
    refine (nearest_le (onGrid_pow 53) (by exact_mod_cast hle)).trans_lt ?_
    norm_num
  · -- from `2^53` on doubles are whole, and rounding keeps them
    obtain ⟨-, k, hk⟩ := hgrid.half_of_large hlarge
    have hwhole : |r| = (2 * k : ℕ) := by
      push_cast
      linarith
    rw [hwhole, atPlaces_natCast, ← hwhole, nearest_of_onGrid hgrid]
    exact h

/-- With four places at most, what does not vanish is at least `10^-4`. -/
theorem le_abs_nearest_atPlaces (hplaces : places ≤ 4) :
    nearest (atPlaces places r) = 0 ∨ 10 ^ (-4 : ℤ) ≤ |nearest (atPlaces places r)| := by
  rcases atPlaces_eq_zero_or places r with hzero | hunit
  · left
    rw [hzero, nearest_zero]
  · right
    rw [abs_nearest]
    apply isBound_first.le_nearest
    calc (10 : ℝ) ^ (-4 : ℤ) ≤ 10 ^ (-places : ℤ) :=
          zpow_le_zpow_right₀ (by norm_num) (by omega)
      _ ≤ |atPlaces places r| := hunit

end

end Decimal

/-! ### Rounded figures -/

open Decimal in
/-- **The text of a rounded figure** always reads as its value. It is written around a point, with
at least one digit after it, exactly if the value is zero or between `10^-4` and `10^16`. This is so
for figures below `10^16` that are rounded to four places at most. -/
theorem Rounded.isPlain_text_iff {raw : Float} (h : raw.isFinite = true) (precision : ℕ) :
    readFloat? (Rounded.of raw precision).text.toList =
        some (Rounded.of raw precision).value ∧
      (IsPlain (Rounded.of raw precision).text.toList ↔
        toReal (Rounded.of raw precision).value = 0 ∨
          (10 : ℝ) ^ (-4 : ℤ) ≤ |toReal (Rounded.of raw precision).value| ∧
            |toReal (Rounded.of raw precision).value| < 10 ^ 16) ∧
      (precision ≤ 4 → |toReal raw| < 10 ^ 16 →
        IsPlain (Rounded.of raw precision).text.toList) := by
  have hraw := hasValue_toReal h
  have hvalue : HasValue (Rounded.of raw precision).value
      (nearest (atPlaces (min precision maxPrecision) (toReal raw))) :=
    hasValue_roundPlaces _ hraw
  have hplain := isPlain_figure_iff hvalue.isFinite
  refine ⟨readFloat?_render isLegible_figure _, hplain, ?_⟩
  intro hprecision hbelow
  refine hplain.2 ?_
  have hplaces : min precision maxPrecision ≤ 4 := (Nat.min_le_left ..).trans hprecision
  rw [hvalue.toReal_eq]
  exact (le_abs_nearest_atPlaces hplaces).imp_right
    fun hlow => ⟨hlow, abs_nearest_atPlaces_lt hraw.onGrid hbelow⟩

/-- A whole mean keeps its point. -/
theorem Rounded.isPlain_text_iff_of_whole :
    (591 : Float).isFinite = true ∧ 2 ≤ 4 ∧ |toReal 591| < 10 ^ 16 ∧
      (Rounded.of 591 2).text = "591.0" ∧ Decimal.IsPlain (Rounded.of 591 2).text.toList := by
  have hfin : (591 : Float).isFinite = true := by decide
  have hvalue : Binary64.value 591 = .finite false 5198490976124928 (-43) := by decide
  have hbelow : |toReal 591| < 10 ^ 16 := by
    rw [toReal_of_value hvalue]
    norm_num
  have htext : (Rounded.of 591 2).text = "591.0" := by decide +kernel
  obtain ⟨-, -, hplain⟩ := Rounded.isPlain_text_iff hfin 2
  exact ⟨hfin, by decide, hbelow, htext, hplain (by decide) hbelow⟩

/-- **A large mean has an exponent**, so not every figure is written around a point. -/
theorem Rounded.not_isPlain_text :
    (1e16 : Float).isFinite = true ∧ (Rounded.of 1e16 2).text = "1e16" ∧
      ¬ ∀ (raw : Float) (precision : ℕ), raw.isFinite = true →
        Decimal.IsPlain (Rounded.of raw precision).text.toList := by
  have hfin : (1e16 : Float).isFinite = true := by decide
  have htext : (Rounded.of 1e16 2).text = "1e16" := by decide +kernel
  refine ⟨hfin, htext, ?_⟩
  intro hall
  have hplain := hall 1e16 2 hfin
  rw [htext] at hplain
  exact hplain.not_mem (by decide)

end Campaign
