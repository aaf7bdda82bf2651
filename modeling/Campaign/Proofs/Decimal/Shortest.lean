import Campaign.Decimal.Shortest
import Campaign.Proofs.Binary64.Scientific
import Campaign.Proofs.Decimal.Layout

/-!
# Shortest decimals read back

The reals that round to a double form an interval around it, half a unit wide on both sides, but
only a quarter of a unit below a power of two (`Rounds`). A decimal that the search takes from a
grid is in the interval because it was looked for there. After seventeen grids the nearest point of
the next one is taken, and it is in the interval because half a step of that grid is less than a
quarter of a unit.

## Main statements

* `nearest_of_rounds`: the numbers of the interval round to the double;
* `rounds_search`: the search ends in the interval;
* `toFloat_pointed_shortest`: the shortest decimal of a double reads back to it.
-/

namespace Campaign.Decimal

open Binary64
open Float.Model (UnpackedFloat)

/-! ### The rounding interval -/

/-- The numbers in the interval of `m · 2^q`; the ends belong to it if the mantissa is even. -/
structure Rounds (m : ℕ) (q : ℤ) (y : ℝ) : Prop where
  low_le : (Interval.of m q).low * 2 ^ (q - 2) ≤ y
  le_high : y ≤ (Interval.of m q).high * 2 ^ (q - 2)
  strict : (Interval.of m q).closed = false →
    (Interval.of m q).low * 2 ^ (q - 2) < y ∧ y < (Interval.of m q).high * 2 ^ (q - 2)

theorem unitExponent_eq {y : ℝ} {q : ℤ} (hq : -1074 ≤ q) (hy : 0 < y)
    (hlow : 2 ^ (q + 52) ≤ y ∨ q = -1074) (hhigh : y < 2 ^ (q + 53)) : unitExponent y = q := by
  have hlog : Int.log 2 y < q + 53 :=
    (Int.lt_zpow_iff_log_lt (by norm_num) hy).1 (by exact_mod_cast hhigh)
  unfold unitExponent
  rw [abs_of_pos hy]
  rcases hlow with hlow | rfl
  · have : q + 52 ≤ Int.log 2 y :=
      (Int.zpow_le_iff_le_log (by norm_num) hy).1 (by exact_mod_cast hlow)
    omega
  · omega

theorem low_cases {m : ℕ} (hm : 0 < m) (q : ℤ) :
    ((Interval.of m q).low : ℝ) = 4 * m - 2 ∨
      ((Interval.of m q).low : ℝ) = 4 * m - 1 ∧ m = 2 ^ 52 ∧ q ≠ -1074 := by
  simp only [Interval.of]
  split_ifs with h
  · right
    rw [Nat.cast_sub (by omega)]
    exact ⟨by push_cast; ring, h⟩
  · left
    rw [Nat.cast_sub (by omega)]
    push_cast; ring

theorem high_eq (m : ℕ) (q : ℤ) : ((Interval.of m q).high : ℝ) = 4 * m + 2 := by
  simp [Interval.of]

/-- The interval in units of the double. -/
theorem Rounds.bounds {m : ℕ} {q : ℤ} (hm : 0 < m) {y : ℝ} (h : Rounds m q y) :
    |y / 2 ^ q - m| ≤ 1 / 2 ∧ (|y / 2 ^ q - m| = 1 / 2 → m % 2 = 0) ∧
      (m = 2 ^ 52 → q ≠ -1074 → m - 1 / 4 ≤ y / 2 ^ q) := by
  obtain ⟨hlow, hhigh, hstrict⟩ := h
  have hu : (0 : ℝ) < 2 ^ q := by positivity
  have hquarter : (2 : ℝ) ^ (q - 2) = 2 ^ q / 4 := by
    rw [zpow_sub₀ two_ne_zero]; norm_num
  obtain ⟨z, rfl⟩ : ∃ z, y = z * 2 ^ q := ⟨y / 2 ^ q, by field_simp⟩
  have scale : ∀ a : ℝ, a * (2 ^ q / 4) = a / 4 * 2 ^ q := fun a => by ring
  rw [hquarter, scale] at hlow hhigh
  simp only [hquarter, scale, mul_lt_mul_iff_left₀ hu] at hstrict
  rw [mul_le_mul_iff_left₀ hu] at hlow hhigh
  rw [high_eq] at hhigh hstrict
  rw [mul_div_cancel_right₀ _ hu.ne']
  have hodd : m % 2 ≠ 0 → (Interval.of m q).closed = false := fun h => by simp [Interval.of, h]
  refine ⟨?_, fun hhalf => ?_, fun hpower hnormal => ?_⟩
  · rw [abs_le]
    rcases low_cases hm q with e | ⟨e, -⟩ <;> rw [e] at hlow <;> constructor <;> linarith
  · by_contra h
    obtain ⟨hl, hh⟩ := hstrict (hodd h)
    have hlt : |z - m| < 1 / 2 := by
      rw [abs_lt]
      rcases low_cases hm q with e | ⟨e, -⟩ <;> rw [e] at hl <;> constructor <;> linarith
    exact hlt.ne hhalf
  · have e : ((Interval.of m q).low : ℝ) = 4 * m - 1 := by
      simp only [Interval.of, Nat.pow_eq]
      rw [if_pos ⟨hpower, hnormal⟩, Nat.cast_sub (by omega)]
      push_cast; ring
    rw [e] at hlow
    linarith

theorem two_zpow_add (q : ℤ) (k : ℕ) : (2 : ℝ) ^ (q + k) = 2 ^ k * 2 ^ q := by
  rw [zpow_add₀ two_ne_zero, zpow_natCast, mul_comm]

/-- Just below a power of two the unit is half as large, and the power is the nearest number. -/
theorem nearest_below_power {q : ℤ} (hq : -1074 < q) {z : ℝ} (hlow : 2 ^ 52 - 1 / 4 ≤ z)
    (hless : z < 2 ^ 52) : nearest (z * 2 ^ q) = 2 ^ 52 * 2 ^ q := by
  have hu : (0 : ℝ) < 2 ^ q := by positivity
  have hu' : (0 : ℝ) < 2 ^ (q - 1) := by positivity
  have hhalf : (2 : ℝ) ^ q = 2 * 2 ^ (q - 1) := by rw [zpow_sub_one₀ two_ne_zero]; ring
  have hunit : unitExponent (z * 2 ^ q) = q - 1 := by
    refine unitExponent_eq (by omega) (mul_pos (by linarith) hu) (.inl ?_) ?_
    · rw [show q - 1 + 52 = q + (51 : ℕ) by push_cast; ring, two_zpow_add,
        mul_le_mul_iff_left₀ hu]
      linarith
    · rw [show q - 1 + 53 = q + (52 : ℕ) by push_cast; ring, two_zpow_add,
        mul_lt_mul_iff_left₀ hu]
      exact hless
  have hround : roundEven (2 * z) = 2 ^ 53 := by
    refine roundEven_eq ?_ fun _ => by norm_num
    rw [abs_le]
    push_cast
    constructor <;> linarith
  rw [nearest, hunit, hhalf, ← mul_assoc, mul_comm z 2, mul_div_cancel_right₀ _ hu'.ne', hround]
  push_cast
  ring

/-- **The numbers of the interval round to the double.** -/
theorem nearest_of_rounds {m : ℕ} {q : ℤ} {hm : 0 < m}
    (hc : Canonical (.finite .positive m q hm)) {y : ℝ} (h : Rounds m q y) :
    nearest y = m * 2 ^ q := by
  obtain ⟨hlt, hleast, hnormal⟩ := hc
  obtain ⟨hnear, heven, hquarter⟩ := h.bounds hm
  have hu : (0 : ℝ) < 2 ^ q := by positivity
  obtain ⟨z, rfl⟩ : ∃ z, y = z * 2 ^ q := ⟨y / 2 ^ q, by field_simp⟩
  rw [mul_div_cancel_right₀ _ hu.ne'] at hnear heven hquarter
  have hm1 : (1 : ℝ) ≤ m := by exact_mod_cast hm
  have hm53 : (m : ℝ) + 1 ≤ 2 ^ 53 := by exact_mod_cast hlt
  obtain ⟨hlow, hhigh⟩ := abs_le.1 hnear
  have hbelow : z * 2 ^ q < 2 ^ (q + 53) := by
    rw [show q + 53 = q + (53 : ℕ) from rfl, two_zpow_add, mul_lt_mul_iff_left₀ hu]
    linarith
  by_cases hsame : 2 ^ (q + 52) ≤ z * 2 ^ q ∨ q = -1074
  · -- the number has the unit of the double
    have hround : roundEven z = m := by
      refine roundEven_eq (by exact_mod_cast hnear) fun h => ?_
      have := heven (by exact_mod_cast h)
      omega
    rw [nearest, unitExponent_eq hleast (mul_pos (by linarith) hu) hsame hbelow,
      mul_div_cancel_right₀ _ hu.ne', hround, Int.cast_natCast]
  · -- the number is below a power of two, and the double is that power
    simp only [not_or, not_le] at hsame
    obtain ⟨hless, hq⟩ := hsame
    rw [show q + 52 = q + (52 : ℕ) from rfl, two_zpow_add, mul_lt_mul_iff_left₀ hu] at hless
    have hpower : m = 2 ^ 52 := by
      have hge := hnormal.resolve_right hq
      have hle : m < 2 ^ 52 + 1 := by
        have : (m : ℝ) < 2 ^ 52 + 1 := by linarith
        exact_mod_cast this
      omega
    have hm52 : (m : ℝ) = 2 ^ 52 := by exact_mod_cast hpower
    have hclose := hquarter hpower hq
    rw [hm52] at hclose ⊢
    exact nearest_below_power (by omega) hclose hless

/-! ### Decimals as reals -/

/-- The number that a decimal writes. -/
noncomputable def toReal (d : Decimal) : ℝ := d.coefficient * 10 ^ d.exponent

theorem toReal_stripZeros (d : Decimal) : (stripZeros d).toReal = d.toReal := by
  fun_induction stripZeros d with
  | case1 d h ih =>
    have hten : ((d.coefficient / 10 : ℕ) : ℝ) * 10 = d.coefficient := by
      exact_mod_cast Nat.div_mul_cancel (Nat.dvd_of_mod_eq_zero h.2)
    rw [ih, toReal, toReal, zpow_add_one₀ (by norm_num), ← hten]
    ring
  | case2 d h => rfl

theorem toReal_pointed (d : Decimal) : (pointed d).toReal = d.toReal := by
  rcases lt_or_ge d.exponent 0 with h | h
  · rw [pointed_of_neg h]
  · have hpower : (10 : ℝ) ^ d.exponent = 10 ^ d.exponent.toNat := by
      conv_lhs => rw [← Int.toNat_of_nonneg h, zpow_natCast]
    rw [pointed_of_nonneg h, toReal, toReal, hpower, zpow_neg_one]
    push_cast
    rw [pow_succ]
    field_simp

/-! ### Grids -/

theorem pow_toNat_div {b : ℕ} (hb : 0 < b) (e : ℤ) :
    ((b ^ e.toNat : ℕ) : ℝ) / ((b ^ (-e).toNat : ℕ) : ℝ) = (b : ℝ) ^ e := by
  have hb0 : (b : ℝ) ≠ 0 := by exact_mod_cast hb.ne'
  push_cast
  rw [← zpow_natCast, ← zpow_natCast, ← zpow_sub₀ hb0]
  congr 1
  omega

theorem scaled_pos (m : ℕ) (q p : ℤ) : 0 < (scaled m q p).2 :=
  Nat.mul_pos (Nat.pow_pos (by decide)) (Nat.pow_pos (by decide))

theorem scaled_div (m : ℕ) (q p : ℤ) :
    ((scaled m q p).1 : ℝ) / (scaled m q p).2 = m * 2 ^ q * 10 ^ p := by
  have htwo := @pow_toNat_div 2 (by decide) q
  have hten := @pow_toNat_div 10 (by decide) p
  simp only [scaled, Nat.pow_eq]
  rw [Nat.cast_ofNat] at htwo hten
  rw [← htwo, ← hten]
  push_cast
  field_simp

/-- The grid of the multiples of `10^place`, in the units of the interval. -/
theorem scaled_grid (q place : ℤ) :
    (((scaled 1 (q - 2) (-place)).1 : ℕ) : ℝ) =
      (scaled 1 (q - 2) (-place)).2 * (2 ^ (q - 2) / 10 ^ place) := by
  have hpos : (0 : ℝ) < (scaled 1 (q - 2) (-place)).2 := by exact_mod_cast scaled_pos _ _ _
  have h := scaled_div 1 (q - 2) (-place)
  rw [div_eq_iff hpos.ne', zpow_neg] at h
  rw [h]
  push_cast
  ring

/-- A point that the search accepts is in the interval. -/
theorem rounds_of_contains {m : ℕ} {q place : ℤ} {n : ℕ}
    (h : (Interval.of m q).contains (scaled 1 (q - 2) (-place)).1
      (n * (scaled 1 (q - 2) (-place)).2) = true) :
    Rounds m q (n * 10 ^ place) := by
  have hgrid := scaled_grid q place
  have hstep : (0 : ℝ) < (scaled 1 (q - 2) (-place)).2 := by exact_mod_cast scaled_pos _ _ _
  generalize (scaled 1 (q - 2) (-place)).1 = scale at h hgrid
  generalize (scaled 1 (q - 2) (-place)).2 = step at h hgrid hstep
  have hten : (0 : ℝ) < 10 ^ place := by positivity
  -- both sides of a comparison are in units of `10^place / step`
  obtain ⟨c, hc, hcstep⟩ : ∃ c : ℝ, 0 < c ∧ (step : ℝ) = c * 10 ^ place :=
    ⟨step / 10 ^ place, by positivity, by field_simp⟩
  have hend (k : ℕ) : ((k * scale : ℕ) : ℝ) = c * (k * 2 ^ (q - 2)) := by
    rw [Nat.cast_mul, hgrid, hcstep]; field_simp
  have hpoint : ((n * step : ℕ) : ℝ) = c * (n * 10 ^ place) := by
    rw [Nat.cast_mul, hcstep]; ring
  have le_point (k : ℕ) : k * scale ≤ n * step ↔ (k : ℝ) * 2 ^ (q - 2) ≤ n * 10 ^ place := by
    rw [← Nat.cast_le (α := ℝ), hend, hpoint, mul_le_mul_iff_right₀ hc]
  have point_le (k : ℕ) : n * step ≤ k * scale ↔ (n : ℝ) * 10 ^ place ≤ k * 2 ^ (q - 2) := by
    rw [← Nat.cast_le (α := ℝ), hend, hpoint, mul_le_mul_iff_right₀ hc]
  unfold Interval.contains at h
  cases hclosed : (Interval.of m q).closed with
  | true =>
    simp only [hclosed, if_true, Bool.and_eq_true, decide_eq_true_eq] at h
    exact ⟨(le_point _).1 h.1, (point_le _).1 h.2, fun h => by simp [hclosed] at h⟩
  | false =>
    simp only [hclosed, Bool.false_eq_true, if_false, Bool.and_eq_true, decide_eq_true_eq] at h
    have hlow := lt_iff_lt_of_le_iff_le (point_le (Interval.of m q).low)
    have hhigh := lt_iff_lt_of_le_iff_le (le_point (Interval.of m q).high)
    exact ⟨(hlow.1 h.1).le, (hhigh.1 h.2).le, fun _ => ⟨hlow.1 h.1, hhigh.1 h.2⟩⟩

/-! ### The search -/

/-- The nearest point of a grid that is fine enough is in the interval. -/
theorem rounds_roundDiv {m : ℕ} (hm : 0 < m) {q place : ℤ} (tie : Tie)
    (hfine : (10 : ℝ) ^ place < 2 ^ (q - 1)) :
    Rounds m q (roundDiv (scaled m q (-place)).1 (scaled m q (-place)).2 tie * 10 ^ place) := by
  have hvalue := scaled_div m q (-place)
  have hden := scaled_pos m q (-place)
  have hnear := roundDiv_near (scaled m q (-place)).1 _ tie hden
  generalize (scaled m q (-place)).1 = num at *
  generalize (scaled m q (-place)).2 = den at *
  generalize roundDiv num den tie = n at *
  have hd : (0 : ℝ) < den := by exact_mod_cast hden
  have hten : (0 : ℝ) < 10 ^ place := by positivity
  have hlow : 2 * (den * n : ℝ) ≤ 2 * num + den := by exact_mod_cast hnear.1
  have hhigh : 2 * num ≤ 2 * (den * n : ℝ) + den := by exact_mod_cast hnear.2
  have hnum : (num : ℝ) * 10 ^ place = den * (m * 2 ^ q) := by
    rw [div_eq_iff hd.ne', zpow_neg] at hvalue
    rw [hvalue]
    field_simp
  -- the point is at most half a step from the double
  have hupper : (n : ℝ) * 10 ^ place ≤ m * 2 ^ q + 10 ^ place / 2 := by
    refine le_of_mul_le_mul_left ?_ hd
    nlinarith
  have hlower : m * 2 ^ q - 10 ^ place / 2 ≤ (n : ℝ) * 10 ^ place := by
    refine le_of_mul_le_mul_left ?_ hd
    nlinarith
  have hunit : (2 : ℝ) ^ (q - 1) = 2 ^ q / 2 := by rw [zpow_sub_one₀ two_ne_zero]; ring
  have hquarter : (2 : ℝ) ^ (q - 2) = 2 ^ q / 4 := by rw [zpow_sub₀ two_ne_zero]; norm_num
  rw [hunit] at hfine
  have hlow' : ((Interval.of m q).low : ℝ) ≤ 4 * m - 1 := by
    rcases low_cases hm q with e | ⟨e, -⟩ <;> linarith
  have habove : n * (10 : ℝ) ^ place < (Interval.of m q).high * 2 ^ (q - 2) := by
    rw [high_eq, hquarter]
    linarith
  have hbelow : (Interval.of m q).low * 2 ^ (q - 2) < n * (10 : ℝ) ^ place := by
    rw [hquarter]
    refine lt_of_le_of_lt (mul_le_mul_of_nonneg_right hlow' (by positivity)) ?_
    linarith
  exact ⟨hbelow.le, habove.le, fun _ => ⟨hbelow, habove⟩⟩

/-- Every step of the search that finds nothing makes the grid finer. -/
theorem rounds_search {m : ℕ} (hm : 0 < m) {q : ℤ} (tie : Tie) {fuel : ℕ} {place : ℤ}
    (hfine : (10 : ℝ) ^ (place - fuel) < 2 ^ (q - 1)) :
    Rounds m q (search m q tie fuel place).toReal := by
  induction fuel generalizing place with
  | zero =>
    rw [Nat.cast_zero, sub_zero] at hfine
    exact rounds_roundDiv hm tie hfine
  | succ fuel ih =>
    simp only [search]
    split
    · rename_i n h
      exact rounds_of_contains (inGrid_contains h)
    · refine ih ?_
      rwa [sub_sub, add_comm (1 : ℤ), ← Nat.cast_succ]

/-! ### The shortest decimal -/

theorem pow_leadingPlace_le {m : ℕ} (hm : 0 < m) {q : ℤ} (hq : -1074 ≤ q) :
    (10 : ℝ) ^ (leadingPlace m q - 1) ≤ m * 2 ^ q := by
  have hvalue := scaled_div m q 340
  have hden := scaled_pos m q 340
  have hd : (0 : ℝ) < (scaled m q 340).2 := by exact_mod_cast hden
  have hten : (1 : ℝ) ≤ m * 2 ^ q * 10 ^ (340 : ℤ) := by
    have hm1 : (1 : ℝ) ≤ m := by exact_mod_cast hm
    have hfar : (2 : ℝ) ^ 1074 ≤ 10 ^ 340 :=
      calc (2 : ℝ) ^ 1074 ≤ (2 ^ 33) ^ 34 := by
            rw [← pow_mul]
            exact pow_le_pow_right₀ one_le_two (by norm_num)
        _ ≤ (10 ^ 10) ^ 34 := by gcongr; norm_num
        _ = 10 ^ 340 := by rw [← pow_mul]
    calc (1 : ℝ) ≤ 1 * 2 ^ (-1074 : ℤ) * 10 ^ (340 : ℤ) := by
          rw [one_mul, zpow_neg, zpow_ofNat, zpow_ofNat, inv_mul_eq_div]
          exact (one_le_div (by positivity)).2 hfar
      _ ≤ m * 2 ^ q * 10 ^ (340 : ℤ) := by gcongr; norm_num
  have hpos : 0 < (scaled m q 340).1 / (scaled m q 340).2 := by
    refine Nat.div_pos ?_ hden
    rw [← hvalue, le_div_iff₀ hd, one_mul] at hten
    exact_mod_cast hten
  have hdigits := pow_le_of_digitCount hpos
  simp only [leadingPlace]
  generalize digitCount ((scaled m q 340).1 / (scaled m q 340).2) = c at *
  have hle : (10 : ℝ) ^ ((c : ℤ) - 1) ≤ m * 2 ^ q * 10 ^ (340 : ℤ) := calc
    (10 : ℝ) ^ ((c : ℤ) - 1) ≤ 10 ^ ((c - 1 : ℕ) : ℤ) :=
      zpow_le_zpow_right₀ (by norm_num) (by omega)
    _ = ((Nat.pow 10 (c - 1) : ℕ) : ℝ) := by rw [zpow_natCast, Nat.pow_eq]; norm_cast
    _ ≤ (((scaled m q 340).1 / (scaled m q 340).2 : ℕ) : ℝ) := by exact_mod_cast hdigits
    _ ≤ m * 2 ^ q * 10 ^ (340 : ℤ) := by rw [← hvalue]; exact Nat.cast_div_le
  rw [show (c : ℤ) - 340 - 1 = c - 1 - 340 by ring, zpow_sub₀ (by norm_num),
    div_le_iff₀ (by positivity)]
  exact hle

theorem rounds_shortest {m : ℕ} {q : ℤ} {hm : 0 < m}
    (hc : Canonical (.finite .positive m q hm)) (tie : Tie) :
    Rounds m q (shortest m q tie).toReal := by
  obtain ⟨hlt, hleast, -⟩ := hc
  rw [shortest, if_neg hm.ne', toReal_stripZeros]
  refine rounds_search hm tie ?_
  have hm53 : (m : ℝ) < 2 ^ 53 := by exact_mod_cast hlt
  have hu : (0 : ℝ) < 2 ^ q := by positivity
  calc (10 : ℝ) ^ (leadingPlace m q - 1 - (17 : ℕ))
      = 10 ^ (leadingPlace m q - 1) / 10 ^ 17 := by
        rw [zpow_sub₀ (by norm_num), zpow_natCast]
    _ ≤ m * 2 ^ q / 10 ^ 17 := by
        gcongr
        exact pow_leadingPlace_le hm hleast
    _ < 2 ^ 53 * 2 ^ q / 10 ^ 17 := by gcongr
    _ ≤ 2 ^ (q - 1) := by
        rw [zpow_sub_one₀ two_ne_zero]
        norm_num
        linarith

theorem shortest_pos {m : ℕ} {q : ℤ} {hm : 0 < m}
    (hc : Canonical (.finite .positive m q hm)) (tie : Tie) :
    0 < (shortest m q tie).coefficient := by
  have hlow := (rounds_shortest hc tie).low_le
  by_contra h
  have hzero : (shortest m q tie).toReal = 0 := by
    rw [toReal, Nat.eq_zero_of_not_pos h, Nat.cast_zero, zero_mul]
  have hm1 : (1 : ℝ) ≤ m := by exact_mod_cast hm
  have hend : (0 : ℝ) < (Interval.of m q).low := by
    rcases low_cases hm q with e | ⟨e, -⟩ <;> linarith
  rw [hzero] at hlow
  exact absurd hlow (not_le.2 (by positivity))

/-! ### Reading back -/

theorem canonical_of_value {x : Float} {s : Bool} {m : ℕ} {q : ℤ} (h : value x = .finite s m q)
    (hm : 0 < m) : Canonical (.finite .positive m q hm) := by
  have hc := canonical_of_isFinite (isFinite_of_value h)
  obtain ⟨t, -, rfl⟩ | ⟨t, hm, hu⟩ := unpack_of_value h
  · exact absurd hm (lt_irrefl 0)
  · rwa [hu] at hc

/-- The double of a decimal. -/
theorem hasValue_toFloat (negative : Bool) {d : Decimal} (h : |nearest d.toReal| < 2 ^ 1024) :
    HasValue (d.toFloat negative) (if negative then -nearest d.toReal else nearest d.toReal) := by
  have hexponent : (if decide (d.exponent < 0) then -(d.exponent.natAbs : ℤ)
      else d.exponent.natAbs) = d.exponent := by
    split_ifs with h <;> simp only [decide_eq_true_eq] at h <;> omega
  have hmagnitude : HasValue (Float.ofScientific d.coefficient (decide (d.exponent < 0))
      d.exponent.natAbs) (nearest d.toReal) := by
    rcases Nat.eq_zero_or_pos d.coefficient with hzero | hpos
    · rw [toReal, hzero, Nat.cast_zero, zero_mul, nearest_zero]
      exact hasValue_ofScientific_zero _ _
    · have hread := hasValue_ofScientific hpos (decide (d.exponent < 0)) d.exponent.natAbs
      rw [hexponent, ← toReal] at hread
      exact hread h
  cases negative with
  | true => exact hmagnitude.neg
  | false => exact hmagnitude

/-- A decimal that rounds to the magnitude of a double reads as the double. -/
theorem toFloat_eq {x : Float} {negative : Bool} {m : ℕ} {q : ℤ}
    (hx : value x = .finite negative m q) (hm : 0 < m) {d : Decimal}
    (hd : nearest d.toReal = m * 2 ^ q) : d.toFloat negative = x := by
  have hvalue : HasValue x (if negative then -(m * 2 ^ q) else m * 2 ^ q) :=
    ⟨isFinite_of_value hx, toReal_of_value hx⟩
  have hpos : (0 : ℝ) < m * 2 ^ q := by
    have : (0 : ℝ) < m := by exact_mod_cast hm
    positivity
  have hread := hasValue_toFloat negative (d := d) (by
    rw [hd]
    have := hvalue.abs_lt
    split_ifs at this <;> simpa using this)
  rw [hd] at hread
  refine hread.eq hvalue ?_
  split_ifs
  · exact neg_ne_zero.2 hpos.ne'
  · exact hpos.ne'

/-- Zero is written with a point or without one. -/
theorem toFloat_zero {x : Float} {negative : Bool} {q : ℤ} (hx : value x = .finite negative 0 q)
    (keepsPoint : Bool) : toFloat negative ⟨0, if keepsPoint then -1 else 0⟩ = x := by
  have hvalue : HasValue x 0 := ⟨isFinite_of_value hx, by rw [toReal_of_value hx]; simp⟩
  rcases hvalue.eq_zero_or with rfl | rfl
  · rw [show value 0 = .finite false 0 (-1074) by decide, Value.finite.injEq] at hx
    rw [← hx.1]
    cases keepsPoint <;> decide
  · rw [show value (-0.0) = .finite true 0 (-1074) by decide, Value.finite.injEq] at hx
    rw [← hx.1]
    cases keepsPoint <;> decide

theorem coefficient_shortest {x : Float} {negative : Bool} {m : ℕ} {q : ℤ}
    (hx : value x = .finite negative m q) (tie : Tie) :
    0 < (shortest m q tie).coefficient ∨ (shortest m q tie).exponent = 0 := by
  rcases Nat.eq_zero_or_pos m with rfl | hm
  · exact .inr rfl
  · exact .inl (shortest_pos (canonical_of_value hx hm) tie)

/-- **The shortest decimal of a double reads back to it.** -/
theorem toFloat_pointed_shortest {x : Float} {negative : Bool} {m : ℕ} {q : ℤ}
    (hx : value x = .finite negative m q) (tie : Tie) :
    (pointed (shortest m q tie)).toFloat negative = x := by
  rcases Nat.eq_zero_or_pos m with rfl | hm
  · exact toFloat_zero hx true
  · have hc := canonical_of_value hx hm
    refine toFloat_eq hx hm ?_
    rw [toReal_pointed]
    exact nearest_of_rounds hc (rounds_shortest hc tie)

end Campaign.Decimal
