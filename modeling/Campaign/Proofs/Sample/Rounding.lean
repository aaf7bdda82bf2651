import Campaign.Proofs.Sample.Finite

/-!
# Rounding a rounded figure

A rounded figure is the double `y` nearest to a decimal `d` with a fixed number of places, and
rounding it again looks for the decimal with as many places that is nearest to `y`. It need not be
`d` again, as the doubles may be farther apart than the decimals. But it reads back to `y`:

* where the unit of `y` is less than the step between the decimals, `y` is less than half a step
  from `d`, and `d` is found again;
* where `y` has as many places itself, it is found;
* otherwise the decimal found is less than half a unit from `y`. That is enough unless `y` is a
  power of two, where the unit changes, but up to seventeen places such a `y` is of the second kind.

## Main statements

* `Decimal.nearest_roundDiv`: the decimal found for `y` rounds to `y`;
* `Decimal.roundPlaces_toFloat`: the double of a decimal is kept;
* `Rounded.of_stable`: rounding a figure twice.
-/

namespace Campaign

open Binary64

namespace Decimal

/-! ### Rounded quotients -/

theorem abs_roundDiv_sub_le (m : ℕ) (q p : ℤ) (tie : Tie) :
    |(roundDiv (scaled m q p).1 (scaled m q p).2 tie : ℝ) - m * 2 ^ q * 10 ^ p| ≤ 1 / 2 := by
  have hden := scaled_pos m q p
  have hnear := roundDiv_near (scaled m q p).1 _ tie hden
  rw [← scaled_div]
  generalize (scaled m q p).1 = num at *
  generalize (scaled m q p).2 = den at *
  generalize roundDiv num den tie = n at *
  have hd : (0 : ℝ) < den := by exact_mod_cast hden
  have hlow : 2 * (den * n : ℝ) ≤ 2 * num + den := by exact_mod_cast hnear.1
  have hhigh : 2 * num ≤ 2 * (den * n : ℝ) + den := by exact_mod_cast hnear.2
  have hsplit : (n : ℝ) - num / den = (den * n - num) / den := by field_simp
  rw [hsplit, abs_div, abs_of_pos hd, div_le_iff₀ hd, abs_le]
  constructor <;> linarith

/-- The whole number less than a half away is found, whatever a half does. -/
theorem roundDiv_eq_of_abs_lt {m n : ℕ} {q p : ℤ} (tie : Tie)
    (h : |(n : ℝ) - m * 2 ^ q * 10 ^ p| < 1 / 2) :
    roundDiv (scaled m q p).1 (scaled m q p).2 tie = n := by
  have hnear := abs_roundDiv_sub_le m q p tie
  generalize roundDiv (scaled m q p).1 (scaled m q p).2 tie = k at *
  obtain ⟨hlow, hhigh⟩ := abs_lt.1 h
  obtain ⟨hlow', hhigh'⟩ := abs_le.1 hnear
  have hle : (k : ℝ) < n + 1 := by linarith
  have hge : (n : ℝ) < k + 1 := by linarith
  have hle' : k < n + 1 := by exact_mod_cast hle
  have hge' : n < k + 1 := by exact_mod_cast hge
  omega

/-! ### Units and steps -/

variable {m c p : ℕ} {q : ℤ}

/-- A number that rounds to `m · 2^q` is at most half of that unit away. -/
theorem abs_sub_le_of_nearest_eq {hm : 0 < m} (hc : Canonical (.finite .positive m q hm)) {y : ℝ}
    (hy : 0 < y) (h : nearest y = m * 2 ^ q) : |m * 2 ^ q - y| ≤ 2 ^ q / 2 := by
  obtain ⟨hlt, hleast, -⟩ := hc
  have hbelow : y < 2 ^ (q + 53) := by
    by_contra hge
    have hgrid : OnGrid (2 ^ (q + 53)) := ⟨1, q + 53, by norm_num, by omega, by simp⟩
    have hle : 2 ^ (q + 53) ≤ nearest y := le_nearest hgrid (not_lt.1 hge)
    rw [h, show q + 53 = q + (53 : ℕ) from rfl, two_zpow_add] at hle
    have hm53 : (2 : ℝ) ^ 53 ≤ m := le_of_mul_le_mul_right hle (by positivity)
    exact absurd (show 2 ^ 53 ≤ m by exact_mod_cast hm53) (not_le.2 hlt)
  have hunit : unitExponent y ≤ q := by
    have hlog : Int.log 2 y < q + 53 :=
      (Int.lt_zpow_iff_log_lt (by norm_num) hy).1 (by exact_mod_cast hbelow)
    rw [unitExponent, abs_of_pos hy]
    omega
  calc |m * 2 ^ q - y| = |nearest y - y| := by rw [h]
    _ ≤ 2 ^ unitExponent y / 2 := abs_nearest_sub_le y
    _ ≤ 2 ^ q / 2 := by
      gcongr
      exact one_le_two

/-- The numbers less than half a unit from a double round to it, if the unit does not change
there. -/
theorem nearest_of_abs_lt {hm : 0 < m} (hc : Canonical (.finite .positive m q hm)) {y : ℝ}
    (hsame : m ≠ 2 ^ 52 ∨ q = -1074) (h : |y - m * 2 ^ q| < 2 ^ q / 2) :
    nearest y = m * 2 ^ q := by
  have hquarter : (2 : ℝ) ^ (q - 2) = 2 ^ q / 4 := by rw [zpow_sub₀ two_ne_zero]; norm_num
  have hlow : ((Interval.of m q).low : ℝ) = 4 * m - 2 := by
    rcases low_cases hm q with e | ⟨-, hpower, hnormal⟩
    · exact e
    · exact absurd hsame (by simp [hpower, hnormal])
  obtain ⟨hgt, hlt⟩ := abs_lt.1 h
  have hinside : (Interval.of m q).low * 2 ^ (q - 2) < y ∧
      y < (Interval.of m q).high * 2 ^ (q - 2) := by
    rw [hlow, high_eq, hquarter]
    constructor <;> linarith
  exact nearest_of_rounds hc ⟨hinside.1.le, hinside.2.le, fun _ => hinside⟩

/-- A whole number of steps, if the exponent is not too small. -/
theorem exists_steps {k : ℕ} (h : 0 ≤ q + k + p) :
    ∃ n : ℕ, ((2 ^ k : ℕ) : ℝ) * 2 ^ q * 10 ^ (p : ℤ) = n := by
  refine ⟨2 ^ (q + k + p).toNat * 5 ^ p, ?_⟩
  have hten : (10 : ℝ) ^ (p : ℤ) = 2 ^ (p : ℤ) * 5 ^ p := by
    rw [zpow_natCast, zpow_natCast, ← mul_pow]
    norm_num
  have htwo : (2 : ℝ) ^ (q + k + p).toNat = 2 ^ k * 2 ^ q * 2 ^ (p : ℤ) := by
    rw [← zpow_natCast, Int.toNat_of_nonneg h, ← two_zpow_add, ← zpow_add₀ two_ne_zero]
  push_cast
  rw [hten, htwo]
  ring

/-- With at most seventeen places, a unit of at least a step is not below `2^(-p-52)`. -/
theorem exponent_bound (hp : p ≤ 17) (h : (10 : ℝ) ^ (-p : ℤ) ≤ 2 ^ q) : 0 ≤ q + 52 + p := by
  by_contra hneg
  have hfive : (5 : ℝ) ^ p < 2 ^ 52 := calc
    (5 : ℝ) ^ p ≤ 5 ^ 17 := pow_le_pow_right₀ (by norm_num) hp
    _ < 2 ^ 52 := by norm_num
  have hten : (10 : ℝ) ^ p < 2 ^ (p + 52) := calc
    (10 : ℝ) ^ p = 2 ^ p * 5 ^ p := by rw [← mul_pow]; norm_num
    _ < 2 ^ p * 2 ^ 52 := by gcongr
    _ = 2 ^ (p + 52) := (pow_add ..).symm
  have hunit : (2 : ℝ) ^ q ≤ 2 ^ (-(p + 52 : ℕ) : ℤ) :=
    zpow_le_zpow_right₀ one_le_two (by push_cast; omega)
  rw [zpow_neg, zpow_natCast] at h hunit
  have hinv := inv_strictAnti₀ (by positivity) hten
  linarith

/-- **The decimal that is found for a double rounds to it**, if the double is itself nearest to a
decimal with as many places. -/
theorem nearest_roundDiv {hm : 0 < m} (hc : Canonical (.finite .positive m q hm)) (hp : p ≤ 17)
    (tie : Tie) (hpos : 0 < c) (h : nearest (c * 10 ^ (-p : ℤ)) = m * 2 ^ q) :
    nearest (roundDiv (scaled m q p).1 (scaled m q p).2 tie * 10 ^ (-p : ℤ)) = m * 2 ^ q := by
  have hstep : (0 : ℝ) < 10 ^ (-p : ℤ) := by positivity
  have hinv : (10 : ℝ) ^ (p : ℤ) * 10 ^ (-p : ℤ) = 1 := by
    rw [← zpow_add₀ (by norm_num), add_neg_cancel, zpow_zero]
  have hscale (n : ℕ) : (n : ℝ) * 10 ^ (-p : ℤ) - m * 2 ^ q =
      (n - m * 2 ^ q * 10 ^ (p : ℤ)) * 10 ^ (-p : ℤ) := by
    rw [sub_mul, mul_assoc (_ * _), hinv, mul_one]
  rcases lt_or_ge ((2 : ℝ) ^ q) (10 ^ (-p : ℤ)) with hcoarse | hfine
  · -- the steps are the larger ones, and the decimal is found again
    have hhalf := abs_sub_le_of_nearest_eq hc (by positivity) h
    rw [abs_sub_comm, hscale, abs_mul, abs_of_pos hstep] at hhalf
    have hlt : |(c : ℝ) - m * 2 ^ q * 10 ^ (p : ℤ)| < 1 / 2 :=
      lt_of_mul_lt_mul_right (by linarith) hstep.le
    rw [roundDiv_eq_of_abs_lt tie hlt, h]
  by_cases hwhole : ∃ n : ℕ, (m : ℝ) * 2 ^ q * 10 ^ (p : ℤ) = n
  · -- the double has as many places
    obtain ⟨n, hn⟩ := hwhole
    have hsame : (n : ℝ) * 10 ^ (-p : ℤ) = m * 2 ^ q := by
      rw [← hn, mul_assoc (_ * _), hinv, mul_one]
    rw [roundDiv_eq_of_abs_lt (n := n) tie (by rw [hn]; norm_num), hsame, ← h]
    exact nearest_of_onGrid (onGrid_nearest _)
  · have hlt : (10 : ℝ) ^ (-p : ℤ) < 2 ^ q := by
      refine lt_of_le_of_ne hfine fun heq => hwhole ⟨m, ?_⟩
      rw [mul_assoc, ← heq, mul_comm _ ((10 : ℝ) ^ (p : ℤ)), hinv, mul_one]
    have hpower : m ≠ 2 ^ 52 := by
      rintro rfl
      exact hwhole (exists_steps (exponent_bound hp hfine))
    refine nearest_of_abs_lt hc (.inl hpower) ?_
    rw [hscale, abs_mul, abs_of_pos hstep]
    calc _ ≤ 1 / 2 * (10 : ℝ) ^ (-p : ℤ) :=
          mul_le_mul_of_nonneg_right (abs_roundDiv_sub_le m q p tie) hstep.le
      _ < 2 ^ q / 2 := by linarith

/-! ### Rounding again -/

/-- Zero is read with its sign, however many places it has. -/
theorem value_toFloat_zero (negative : Bool) (hp : p ≤ 17) :
    value (toFloat negative ⟨0, -(p : ℤ)⟩) = .finite negative 0 (-1074) := by
  have hall : ∀ n : Fin 18, ∀ s : Bool,
      value (toFloat s ⟨0, -(n : ℤ)⟩) = .finite s 0 (-1074) := by decide
  exact hall ⟨p, by omega⟩ negative

/-- The parts of a double that stands for a positive number or its negative. -/
theorem exists_value_of_hasValue {x : Float} {negative : Bool} {r : ℝ} (hr : 0 < r)
    (h : HasValue x (if negative then -r else r)) :
    ∃ m q, value x = .finite negative m q ∧ 0 < m ∧ r = m * 2 ^ q := by
  obtain ⟨s, m, q, hx⟩ := exists_value_of_isFinite h.isFinite
  have hvalue := (toReal_of_value hx).symm.trans h.toReal_eq
  have hnonneg : (0 : ℝ) ≤ m * 2 ^ q := by positivity
  have hparts : s = negative ∧ r = m * 2 ^ q := by
    cases s <;> cases negative <;>
      simp only [Bool.false_eq_true, if_false, if_true] at hvalue <;>
      first | exact ⟨rfl, by linarith⟩ | linarith
  obtain ⟨rfl, rfl⟩ := hparts
  refine ⟨m, q, hx, Nat.pos_of_ne_zero ?_, rfl⟩
  rintro rfl
  simp at hr

theorem nearest_pos_of_places (hp : p ≤ 17) (hc : 0 < c) :
    0 < nearest (toReal ⟨c, -(p : ℤ)⟩) := by
  have hgrid : OnGrid (2 ^ (-57 : ℤ)) := ⟨1, -57, by norm_num, by norm_num, by norm_num⟩
  have hc1 : (1 : ℝ) ≤ c := by exact_mod_cast hc
  have hexponent : (-17 : ℤ) ≤ -p := by omega
  have hle : (2 : ℝ) ^ (-57 : ℤ) ≤ c * 10 ^ (-p : ℤ) := calc
    (2 : ℝ) ^ (-57 : ℤ) ≤ 10 ^ (-17 : ℤ) := by norm_num
    _ ≤ 10 ^ (-p : ℤ) := zpow_le_zpow_right₀ (by norm_num) hexponent
    _ ≤ c * 10 ^ (-p : ℤ) := le_mul_of_one_le_left (by positivity) hc1
  exact lt_of_lt_of_le (by positivity) (le_nearest hgrid hle)

/-- **The double of a decimal is kept** by rounding to as many places. -/
theorem roundPlaces_toFloat (negative : Bool) (hp : p ≤ 17)
    (hbound : |nearest (toReal ⟨c, -(p : ℤ)⟩)| < 2 ^ 1024) :
    roundPlaces p (toFloat negative ⟨c, -(p : ℤ)⟩) = toFloat negative ⟨c, -(p : ℤ)⟩ := by
  rcases Nat.eq_zero_or_pos c with rfl | hc
  · have hzero : roundDiv (scaled 0 (-1074) p).1 (scaled 0 (-1074) p).2 .toEven = 0 :=
      roundDiv_eq_of_abs_lt .toEven (by simp)
    rw [roundPlaces_eq (value_toFloat_zero negative hp), hzero]
  · obtain ⟨m, q, hx, hm, hd⟩ :=
      exists_value_of_hasValue (nearest_pos_of_places hp hc) (hasValue_toFloat negative hbound)
    rw [toReal] at hd
    rw [roundPlaces_eq hx]
    exact toFloat_eq hx hm (nearest_roundDiv (canonical_of_value hx hm) hp .toEven hc hd)

theorem roundPlaces_roundPlaces (hp : p ≤ 17) (x : Float) :
    roundPlaces p (roundPlaces p x) = roundPlaces p x := by
  cases hx : value x with
  | finite negative m q =>
    rw [roundPlaces_eq hx]
    exact roundPlaces_toFloat negative hp (abs_nearest_roundDiv_lt hx p)
  | infinite negative =>
    have hkept : roundPlaces p x = x := by rw [roundPlaces, hx]
    rw [hkept, hkept]
  | nan =>
    have hkept : roundPlaces p x = x := by rw [roundPlaces, hx]
    rw [hkept, hkept]

end Decimal

/-! ### Rounded figures -/

/-- **Rounding a figure twice is rounding it once**, in every bit of the double and for every number
of places; from seventeen on, more places change nothing. -/
theorem Rounded.of_stable (raw : Float) (p : ℕ) :
    Rounded.of (Rounded.of raw p).value p = Rounded.of raw p ∧
      ∀ q, 17 ≤ q → Rounded.of raw q = Rounded.of raw 17 := by
  refine ⟨?_, fun q hq => ?_⟩
  · have htwice := Decimal.roundPlaces_roundPlaces (Nat.min_le_right p maxPrecision) raw
    simp only [Rounded.of, htwice]
  · have hcap : min q maxPrecision = min 17 maxPrecision := Nat.min_eq_right hq
    simp only [Rounded.of, hcap]

/-- An eighth lies between two decimals with two places, and the even one is kept. -/
theorem Rounded.of_eighth : Rounded.of 0.125 2 = ⟨0.12, 2⟩ ∧ Rounded.of 0.12 2 = ⟨0.12, 2⟩ ∧
    17 ≤ 20 ∧ Rounded.of 0.125 20 = Rounded.of 0.125 17 := by
  have hfirst : Rounded.of 0.125 2 = ⟨0.12, 2⟩ := by decide
  obtain ⟨hagain, hcap⟩ := Rounded.of_stable 0.125 2
  rw [hfirst] at hagain
  exact ⟨hfirst, hagain, by decide, hcap 20 (by decide)⟩

end Campaign
