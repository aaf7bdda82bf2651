import Campaign.Proofs.Binary64.Finite

/-!
# The unit in the last place

A point of the grid is counted in the unit of its last place. The points of at least `2^52` units
are multiples of the unit, so what is left to show about a rounded number, once it is known up to a
fraction of a unit, is often decided by counting.

## Main statements

* `OnGrid.isMultiple`: the points of the grid beyond `2^52` units are multiples of the unit.
* `abs_nearest_sub_le_half`: the error of rounding, in any unit that is not too small.
* `nearest_greatest_mul_le`: rounding does not enlarge the products with the greatest double.
-/

namespace Campaign.Binary64

section

variable {x y r : ℝ} {k : ℤ}

theorem lastPlace_pos (x : ℝ) : 0 < lastPlace x := zpow_pos two_pos _

theorem lastPlace_neg (x : ℝ) : lastPlace (-x) = lastPlace x := by
  simp only [lastPlace, lastExponent, neg_eq_zero, unitExponent_neg]

theorem le_lastExponent (x : ℝ) : -1074 ≤ lastExponent x := by
  unfold lastExponent
  split_ifs
  · exact le_rfl
  · exact le_unitExponent x

/-- A number is less than `2^53` units. -/
theorem abs_lt_lastPlaces (x : ℝ) : |x| < 2 ^ (lastExponent x + 53) := by
  unfold lastExponent
  split_ifs with h
  · rw [h, abs_zero]
    positivity
  · exact abs_lt_units x

/-- A number whose unit is not the least one is at least `2^52` units. -/
theorem lastPlaces_le_abs (h : -1074 < lastExponent x) : 2 ^ (lastExponent x + 52) ≤ |x| := by
  unfold lastExponent at h ⊢
  split_ifs at h ⊢ with h0
  · omega
  · exact units_le_abs h0 h

theorem lastPlace_mono (h : |x| ≤ |y|) : lastPlace x ≤ lastPlace y := by
  refine zpow_le_zpow_right₀ one_le_two ?_
  by_contra! hlt
  have hx := lastPlaces_le_abs ((le_lastExponent y).trans_lt hlt)
  have hy : (2 : ℝ) ^ (lastExponent y + 53) ≤ 2 ^ (lastExponent x + 52) :=
    zpow_le_zpow_right₀ one_le_two (by omega)
  exact (abs_lt_lastPlaces y).not_ge (hy.trans (hx.trans h))

theorem OnGrid.abs (hx : OnGrid x) : OnGrid |x| := by
  obtain h | h := abs_choice x
  · rwa [h]
  · rw [h]
    exact hx.neg

theorem OnGrid.max (hx : OnGrid x) (hy : OnGrid y) : OnGrid (max x y) := by
  obtain h | h := max_choice x y
  · rwa [h]
  · rwa [h]

/-! ### Counting in units -/

theorem IsMultiple.add (hx : IsMultiple k x) (hy : IsMultiple k y) : IsMultiple k (x + y) := by
  obtain ⟨m, rfl⟩ := hx
  obtain ⟨n, rfl⟩ := hy
  exact ⟨m + n, by rw [Int.cast_add, add_mul]⟩

/-- The distance of two multiples of a unit is counted in whole units. -/
theorem IsMultiple.sub_le (hx : IsMultiple k x) (hy : IsMultiple k y) (i : ℤ)
    (h : x - y < (i + 1) * 2 ^ k) : x - y ≤ i * 2 ^ k := by
  obtain ⟨m, rfl⟩ := hx
  obtain ⟨n, rfl⟩ := hy
  have hpower : (0 : ℝ) < 2 ^ k := zpow_pos two_pos k
  rw [← sub_mul] at h ⊢
  have hlt : (m : ℝ) - n < i + 1 := lt_of_mul_lt_mul_right h hpower.le
  have hint : m - n < i + 1 := by exact_mod_cast hlt
  have hle : (m : ℝ) - n ≤ i := by exact_mod_cast Int.lt_add_one_iff.1 hint
  exact mul_le_mul_of_nonneg_right hle hpower.le

/-- A multiple of a unit is on the grid if it is not beyond `2^53` units. -/
theorem IsMultiple.onGrid (hr : IsMultiple k r) (hk : -1074 ≤ k) (h : |r| ≤ 2 ^ (k + 53)) :
    OnGrid r := by
  obtain ⟨n, rfl⟩ := hr
  refine ⟨n, k, ?_, hk, rfl⟩
  have hpower : (0 : ℝ) < 2 ^ k := zpow_pos two_pos k
  rw [abs_mul, abs_of_pos hpower, add_comm, zpow_add₀ two_ne_zero] at h
  have hn := le_of_mul_le_mul_right h hpower
  exact_mod_cast hn

/-- **The points beyond `2^52` units are multiples of the unit.** Of the least unit all points
are. -/
theorem OnGrid.isMultiple (hr : OnGrid r) (h : k = -1074 ∨ 2 ^ (k + 52) ≤ |r|) :
    IsMultiple k r := by
  obtain ⟨m, e, hm, he, rfl⟩ := hr
  obtain hke | hek := le_or_gt k e
  · refine ⟨m * 2 ^ (e - k).toNat, ?_⟩
    rw [zpow_eq_mul_zpow hke]
    push_cast
    ring
  · -- the point is the least of them, or its negative
    have hlow : (2 : ℝ) ^ (k + 52) ≤ |(m : ℝ) * 2 ^ e| := h.resolve_left (by omega)
    have hone : (2 : ℝ) ^ (k + 52) = (2 ^ 52 : ℤ) * 2 ^ k := by
      rw [add_comm, zpow_add₀ two_ne_zero]
      norm_num
    obtain hpos | hneg := (abs_eq (by positivity)).1 (le_antisymm (abs_le_units hm hek) hlow)
    · exact ⟨2 ^ 52, hpos.trans hone⟩
    · refine ⟨-2 ^ 52, hneg.trans ?_⟩
      rw [hone, Int.cast_neg, neg_mul]

/-- Points that are close to a number of at least `2^52` units are multiples of half a unit. -/
theorem OnGrid.isMultiple_half (hr : OnGrid r) (hx : 2 ^ (k + 52) ≤ |x|)
    (h : |r - x| ≤ 4 * 2 ^ k) : IsMultiple (k - 1) r := by
  refine hr.isMultiple (.inr ?_)
  have hpower : (0 : ℝ) < 2 ^ k := zpow_pos two_pos k
  have hunits : (2 : ℝ) ^ (k + 52) = 2 ^ 52 * 2 ^ k := by
    rw [add_comm, zpow_add₀ two_ne_zero]
    rfl
  have hhalves : (2 : ℝ) ^ (k - 1 + 52) = 2 ^ 51 * 2 ^ k := by
    rw [show k - 1 + 52 = 51 + k by ring, zpow_add₀ two_ne_zero]
    rfl
  have htriangle := abs_sub_abs_le_abs_sub x r
  rw [abs_sub_comm x r] at htriangle
  rw [hunits] at hx
  rw [hhalves]
  linarith

theorem zpow_pred (k : ℤ) : (2 : ℝ) ^ (k - 1) = 2 ^ k / 2 := by
  rw [zpow_sub_one₀ two_ne_zero, div_eq_mul_inv]

/-- Points close to a number of at least `2^52` units are counted in halves of the unit. -/
theorem OnGrid.sub_le_halves {M s : ℝ} (hr : OnGrid r) (hs : OnGrid s)
    (hx : 2 ^ (lastExponent M + 52) ≤ |x|) (hrx : |r - x| ≤ 4 * lastPlace M)
    (hsx : |s - x| ≤ 4 * lastPlace M) (i : ℤ) (h : r - s < (i + 1) * (lastPlace M / 2)) :
    r - s ≤ i * (lastPlace M / 2) := by
  rw [lastPlace, ← zpow_pred] at h ⊢
  exact (hr.isMultiple_half hx hrx).sub_le (hs.isMultiple_half hx hsx) i h

theorem OnGrid.isMultiple_lastPlace (hx : OnGrid x) : IsMultiple (lastExponent x) x := by
  refine hx.isMultiple ?_
  obtain h | h := (le_lastExponent x).eq_or_lt
  · exact .inl h.symm
  · exact .inr (lastPlaces_le_abs h)

/-- There is room for one more unit below the next power of two. -/
theorem abs_add_lastPlace_le (hx : OnGrid x) :
    |x| + lastPlace x ≤ 2 ^ (lastExponent x + 53) := by
  have hlt := abs_lt_lastPlaces x
  obtain ⟨n, hn⟩ := hx.isMultiple_lastPlace
  rw [← lastPlace] at hn
  have hpos := lastPlace_pos x
  have hunits : (2 : ℝ) ^ (lastExponent x + 53) = 2 ^ 53 * lastPlace x := by
    rw [add_comm, zpow_add₀ two_ne_zero]
    rfl
  have habs : |x| = |(n : ℝ)| * lastPlace x := by
    rw [← abs_of_pos hpos, ← abs_mul, ← hn]
  rw [habs, hunits] at hlt
  have hcount : |(n : ℝ)| < 2 ^ 53 := lt_of_mul_lt_mul_right hlt hpos.le
  have hroom : |n| < 2 ^ 53 := by exact_mod_cast hcount
  rw [habs, hunits, ← add_one_mul]
  exact mul_le_mul_of_nonneg_right (by exact_mod_cast hroom) hpos.le

/-- The next point of the grid. -/
theorem onGrid_add_lastPlace (hx : OnGrid x) : OnGrid (x + lastPlace x) := by
  have hone : IsMultiple (lastExponent x) (lastPlace x) := ⟨1, by rw [Int.cast_one, one_mul]; rfl⟩
  refine (hx.isMultiple_lastPlace.add hone).onGrid (le_lastExponent x) ?_
  refine (abs_add_le _ _).trans ?_
  rw [abs_of_pos (lastPlace_pos x)]
  exact abs_add_lastPlace_le hx

/-! ### The error of rounding -/

/-- **The error of rounding** is at most half of any unit of which the number has hardly more than
`2^53`. -/
theorem abs_nearest_sub_le_half (hk : -1074 ≤ k) (h : |x| ≤ 2 ^ (k + 53) + 2 ^ k / 2) :
    |nearest x - x| ≤ 2 ^ k / 2 := by
  obtain hlt | hge := lt_or_ge |x| (2 ^ (k + 53))
  · obtain rfl | h0 := eq_or_ne x 0
    · rw [nearest_zero, sub_zero, abs_zero]
      positivity
    · have hunit : unitExponent x ≤ k := by
        by_contra! hlarge
        have hlow := units_le_abs h0 (hk.trans_lt hlarge)
        have hpower : (2 : ℝ) ^ (k + 53) ≤ 2 ^ (unitExponent x + 52) :=
          zpow_le_zpow_right₀ one_le_two (by omega)
        exact (hpower.trans hlow).not_gt hlt
      refine (abs_nearest_sub_le x).trans ?_
      gcongr
      exact one_le_two
  · -- the power of two from which on the units are larger is not farther away
    have hpower : OnGrid (2 ^ (k + 53)) := onGrid_zpow (by omega)
    obtain hpos | hneg := le_total 0 x
    · refine (abs_nearest_sub_le_abs_sub hpower).trans ?_
      rw [abs_of_nonneg hpos] at h hge
      rw [abs_of_nonpos (by linarith)]
      linarith
    · refine (abs_nearest_sub_le_abs_sub hpower.neg).trans ?_
      rw [abs_of_nonpos hneg] at h hge
      rw [abs_of_nonneg (by linarith)]
      linarith

/-- A number less than half a unit above a multiple of the unit is rounded down to it. -/
theorem nearest_le_of_sub_lt_half {n : ℤ} (hk : -1074 ≤ k) (hlow : 2 ^ (k + 52) ≤ x)
    (hhigh : x ≤ 2 ^ (k + 53)) (h : x - n * 2 ^ k < 2 ^ k / 2) : nearest x ≤ n * 2 ^ k := by
  have hpower : (0 : ℝ) < 2 ^ k := zpow_pos two_pos k
  have hx : 0 < x := (zpow_pos two_pos _).trans_le hlow
  have herror := (abs_le.1 (abs_nearest_sub_le_half hk (x := x) (by
    rw [abs_of_pos hx]
    linarith))).2
  have hbeyond : 2 ^ (k + 52) ≤ |nearest x| :=
    (le_nearest (onGrid_zpow (by omega)) hlow).trans (le_abs_self _)
  have hcount := ((onGrid_nearest x).isMultiple (.inr hbeyond)).sub_le ⟨n, rfl⟩ 0 (by
    norm_num
    linarith)
  norm_num at hcount
  linarith

theorem greatest_eq : greatest = (2 ^ 53 - 1 : ℤ) * (2 : ℝ) ^ (971 : ℤ) := by
  rw [greatest, zpow_ofNat]
  norm_num

/-- A number less than half a unit above the greatest double is rounded down to it. -/
theorem nearest_le_greatest (h : x < greatest + 2 ^ (971 : ℤ) / 2) : nearest x ≤ greatest := by
  obtain hle | hgt := le_or_gt x greatest
  · exact nearest_le onGrid_greatest hle
  have hpower : (0 : ℝ) < 2 ^ (971 : ℤ) := zpow_pos two_pos _
  rw [greatest_eq] at *
  refine nearest_le_of_sub_lt_half (by norm_num) ?_ ?_ (by linarith)
  · rw [zpow_add₀ two_ne_zero, zpow_ofNat _ 52]
    generalize (2 : ℝ) ^ (971 : ℤ) = c at *
    norm_num at hgt ⊢
    linarith
  · rw [zpow_add₀ two_ne_zero, zpow_ofNat _ 53]
    generalize (2 : ℝ) ^ (971 : ℤ) = c at *
    norm_num at h ⊢
    linarith

theorem greatest_mul_lt : greatest * (1 / 2 ^ 54) < 2 ^ (971 : ℤ) / 2 := by
  have hpower : (0 : ℝ) < 2 ^ (971 : ℤ) := zpow_pos two_pos _
  rw [greatest_eq]
  generalize (2 : ℝ) ^ (971 : ℤ) = c at *
  norm_num
  linarith

/-- The product of two mantissas, of which one has only ones, is less than half a unit above a
multiple of the unit. -/
theorem nearest_ones_mul_le {m : ℕ} (hm : m ≤ 2 ^ 53) (hk : -1074 ≤ k) :
    nearest ((2 ^ 53 - 1) * m * 2 ^ k) ≤ (2 ^ 53 - 1) * m * 2 ^ k := by
  obtain rfl | hm0 := Nat.eq_zero_or_pos m
  · simp
  obtain ⟨j, hlow, hhigh⟩ : ∃ j, 2 ^ j ≤ m ∧ m < 2 ^ (j + 1) :=
    ⟨_, Nat.pow_log_le_self 2 hm0.ne', Nat.lt_pow_succ_log_self one_lt_two m⟩
  obtain rfl | hlt := hlow.eq_or_lt
  · -- a power of two moves the mantissa only
    refine (nearest_of_onGrid ⟨2 ^ 53 - 1, k + j, by norm_num, by omega, ?_⟩).le
    rw [zpow_add₀ two_ne_zero, zpow_natCast]
    push_cast
    ring
  · have hpower : (0 : ℝ) < 2 ^ k := zpow_pos two_pos k
    have hj : j + 1 ≤ 53 := (Nat.pow_lt_pow_iff_right one_lt_two).1 (hlt.trans_le hm)
    have hm1 : (2 : ℝ) ^ j + 1 ≤ m := by exact_mod_cast hlt
    have hm2 : (m : ℝ) ≤ 2 ^ (j + 1) := by exact_mod_cast hhigh.le
    have hm3 : (m : ℝ) ≤ 2 ^ 53 := by exact_mod_cast hm
    have hdouble : (2 : ℝ) ^ (j + 1) = 2 * 2 ^ j := pow_succ' 2 j
    have hunit : (2 : ℝ) ^ (k + (j + 1 : ℕ)) = 2 ^ (j + 1) * 2 ^ k := by
      rw [zpow_add₀ two_ne_zero, zpow_natCast, mul_comm]
    have hpowers (c : ℕ) : (2 : ℝ) ^ (k + (j + 1 : ℕ) + c) = 2 ^ (j + 1) * 2 ^ c * 2 ^ k := by
      rw [zpow_add₀ two_ne_zero, hunit, zpow_natCast, mul_right_comm]
    have hbelow : ((m * 2 ^ (52 - j) - 1 : ℤ) : ℝ) * 2 ^ (k + (j + 1 : ℕ)) =
        (2 ^ 53 * m - 2 ^ (j + 1)) * 2 ^ k := by
      have hsplit : (2 : ℝ) ^ 53 = 2 ^ (52 - j) * 2 ^ (j + 1) := by
        rw [← pow_add]
        congr 1
        omega
      rw [hunit, hsplit]
      push_cast
      ring
    have hle : ((2 : ℝ) ^ 53 * m - 2 ^ (j + 1)) * 2 ^ k ≤ (2 ^ 53 - 1) * m * 2 ^ k :=
      mul_le_mul_of_nonneg_right (by linarith) hpower.le
    refine (hbelow ▸ nearest_le_of_sub_lt_half (by omega) ?_ ?_ ?_).trans hle
    · refine (hpowers 52).trans_le (mul_le_mul_of_nonneg_right ?_ hpower.le)
      linarith
    · refine (mul_le_mul_of_nonneg_right ?_ hpower.le).trans_eq (hpowers 53).symm
      linarith
    · rw [hbelow, hunit, ← sub_mul, mul_div_right_comm]
      refine mul_lt_mul_of_pos_right ?_ hpower
      linarith

/-- **Products with the greatest double** are not enlarged by rounding. -/
theorem nearest_greatest_mul_le (hx : OnGrid x) (h0 : 0 ≤ x) :
    nearest (greatest * x) ≤ greatest * x := by
  obtain ⟨i, e, hi, he, rfl⟩ := hx
  have hpower : (0 : ℝ) < 2 ^ e := zpow_pos two_pos e
  have hi0 : 0 ≤ i := by exact_mod_cast nonneg_of_mul_nonneg_left h0 hpower
  obtain ⟨m, rfl⟩ := Int.eq_ofNat_of_zero_le hi0
  have hm : m ≤ 2 ^ 53 := by
    rw [Nat.abs_cast] at hi
    exact_mod_cast hi
  have hproduct : greatest * (((m : ℤ) : ℝ) * 2 ^ e) = (2 ^ 53 - 1) * m * 2 ^ (971 + e) := by
    rw [zpow_add₀ two_ne_zero, zpow_ofNat, greatest, Int.cast_natCast]
    generalize (2 : ℝ) ^ 971 = c
    ring
  rw [hproduct]
  exact nearest_ones_mul_le hm (by omega)

end

end Campaign.Binary64
