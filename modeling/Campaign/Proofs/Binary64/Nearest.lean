import Campaign.Proofs.Binary64.Defs

/-!
# Rounding a real number to the grid of the doubles

A finite double is a multiple `m · 2^e` of a power of two with `|m| ≤ 2^53` and `-1074 ≤ e`. Below
the overflow bound every operation on doubles gives the point of this grid that is nearest to the
exact result, and of two such points the one with the even multiple.

## Main statements

* `nearest_le`, `le_nearest`: rounding does not jump over a grid point.
* `nearest_mono`, `nearest_of_onGrid`, `onGrid_nearest`: rounding is a monotone retraction on the
  grid.
* `abs_nearest_sub_le`: the error is at most half a unit.
* `abs_nearest_sub_le_abs_sub`: no point of the grid is nearer than the nearest one.
-/

namespace Campaign.Binary64

/-! ### The nearest integer -/

theorem abs_sub_roundEven_le (x : ℝ) : |x - roundEven x| ≤ 1 / 2 := by
  have h1 := Int.floor_le x
  have h2 := Int.lt_floor_add_one x
  unfold roundEven
  split_ifs with h
  · rw [abs_le]
    rcases h with h | ⟨h, -⟩ <;> constructor <;> linarith
  · push Not at h
    rw [abs_le]
    push_cast
    constructor <;> linarith [h.1]

theorem even_roundEven {x : ℝ} (h : |x - roundEven x| = 1 / 2) : roundEven x % 2 = 0 := by
  have h1 := Int.floor_le x
  unfold roundEven at h ⊢
  split_ifs with hc
  · rw [if_pos hc, abs_of_nonneg (by linarith)] at h
    rcases hc with hc | hc
    · exact absurd h hc.ne
    · exact hc.2
  · rw [if_neg hc] at h
    push Not at hc
    have h2 := Int.lt_floor_add_one x
    push_cast at h
    rw [abs_of_nonpos (by linarith)] at h
    have := hc.2 (by linarith)
    omega

/-- Nearness and the choice of the even neighbour determine the integer. -/
theorem roundEven_eq {x : ℝ} {n : ℤ} (h : |x - n| ≤ 1 / 2) (he : |x - n| = 1 / 2 → n % 2 = 0) :
    roundEven x = n := by
  have h' := abs_sub_roundEven_le x
  have he' := @even_roundEven x
  generalize roundEven x = k at h' he'
  have hkn : |(k - n : ℝ)| ≤ 1 := by
    rw [abs_le] at h h' ⊢
    constructor <;> linarith [h.1, h.2, h'.1, h'.2]
  have hkn' : |k - n| ≤ 1 := by exact_mod_cast hkn
  -- two integers at distance one from each other would both be even
  rcases abs_le.1 hkn' with ⟨h1, h2⟩
  rw [abs_le] at h h'
  obtain hk | hk | hk : k = n ∨ k = n + 1 ∨ k = n - 1 := by omega
  · exact hk
  · rw [hk] at h' he'
    push_cast at h' he'
    have e1 := he (by rw [abs_of_nonneg] <;> linarith [h.1, h.2, h'.1, h'.2])
    have e2 := he' (by rw [abs_of_nonpos] <;> linarith [h.1, h.2, h'.1, h'.2])
    omega
  · rw [hk] at h' he'
    push_cast at h' he'
    have e1 := he (by rw [abs_of_nonpos] <;> linarith [h.1, h.2, h'.1, h'.2])
    have e2 := he' (by rw [abs_of_nonneg] <;> linarith [h.1, h.2, h'.1, h'.2])
    omega

/-- No integer is nearer than the nearest one. -/
theorem abs_sub_roundEven_le_abs_sub (x : ℝ) (n : ℤ) : |x - roundEven x| ≤ |x - n| := by
  by_contra hlt
  rw [not_le] at hlt
  have hhalf : |x - n| < 1 / 2 := hlt.trans_le (abs_sub_roundEven_le x)
  have heq : roundEven x = n := roundEven_eq hhalf.le fun h => absurd h hhalf.ne
  rw [heq] at hlt
  exact lt_irrefl _ hlt

@[simp] theorem roundEven_intCast (n : ℤ) : roundEven n = n :=
  roundEven_eq (by norm_num) (by norm_num)

theorem roundEven_neg (x : ℝ) : roundEven (-x) = -roundEven x := by
  have e : |-x - ((-roundEven x : ℤ) : ℝ)| = |x - roundEven x| := by
    rw [← abs_neg]; push_cast; congr 1; ring
  refine roundEven_eq (by rw [e]; exact abs_sub_roundEven_le x) fun h => ?_
  have := even_roundEven (e ▸ h)
  omega

theorem roundEven_mono {x y : ℝ} (h : x ≤ y) : roundEven x ≤ roundEven y := by
  by_contra hlt
  have hx := abs_le.1 (abs_sub_roundEven_le x)
  have hy := abs_le.1 (abs_sub_roundEven_le y)
  have hlt' : (roundEven y : ℝ) + 1 ≤ roundEven x := by exact_mod_cast not_le.1 hlt
  -- both numbers are the midpoint of their two integers
  have hxy : x = y := by linarith [hx.1, hy.2]
  exact hlt (by rw [hxy])

/-! ### The grid -/

theorem OnGrid.neg {r : ℝ} (h : OnGrid r) : OnGrid (-r) := by
  obtain ⟨m, e, hm, he, rfl⟩ := h
  exact ⟨-m, e, by rwa [abs_neg], he, by push_cast; ring⟩

theorem OnGrid.two_mul {r : ℝ} (h : OnGrid r) : OnGrid (2 * r) := by
  obtain ⟨m, e, hm, he, rfl⟩ := h
  exact ⟨m, e + 1, hm, by omega, by rw [zpow_add_one₀ two_ne_zero]; ring⟩

theorem onGrid_intCast {n : ℤ} (h : |n| ≤ 2 ^ 53) : OnGrid n := ⟨n, 0, h, by norm_num, by simp⟩

theorem onGrid_natCast {n : ℕ} (h : n ≤ 2 ^ 53) : OnGrid n := by
  have := onGrid_intCast (n := n) (by rw [Nat.abs_cast]; exact_mod_cast h)
  exact_mod_cast this

theorem onGrid_half {n : ℤ} (h : |n| ≤ 2 ^ 53) : OnGrid (n / 2) :=
  ⟨n, -1, h, by norm_num, by rw [zpow_neg_one]; ring⟩

theorem onGrid_zpow {e : ℤ} (h : -1074 ≤ e) : OnGrid (2 ^ e) := ⟨1, e, by norm_num, h, by simp⟩

theorem onGrid_pow (k : ℕ) : OnGrid (2 ^ k) := by
  have := onGrid_zpow (e := k) (by omega)
  exact_mod_cast this

theorem onGrid_zero : OnGrid 0 := ⟨0, 0, by norm_num, by norm_num, by simp⟩

theorem onGrid_one : OnGrid 1 := ⟨1, 0, by norm_num, by norm_num, by simp⟩

/-! ### The nearest point of the grid -/

theorem le_unitExponent (x : ℝ) : -1074 ≤ unitExponent x := le_max_right _ _

theorem unitExponent_neg (x : ℝ) : unitExponent (-x) = unitExponent x := by
  rw [unitExponent, unitExponent, abs_neg]

/-- A number is less than `2^53` units. -/
theorem abs_lt_units (x : ℝ) : |x| < 2 ^ (unitExponent x + 53) := by
  have h := Int.lt_zpow_succ_log_self (b := 2) (by norm_num) |x|
  push_cast at h
  refine h.trans_le (zpow_le_zpow_right₀ (by norm_num) ?_)
  have := le_max_left (Int.log 2 |x| - 52) (-1074)
  unfold unitExponent
  omega

/-- A number whose unit is not the least one is at least `2^52` units. -/
theorem units_le_abs {x : ℝ} (hx : x ≠ 0) (h : -1074 < unitExponent x) :
    2 ^ (unitExponent x + 52) ≤ |x| := by
  have he : unitExponent x = Int.log 2 |x| - 52 := by
    unfold unitExponent at h ⊢
    omega
  have := Int.zpow_log_le_self (b := 2) (by norm_num) (abs_pos.2 hx)
  push_cast at this
  rwa [he, sub_add_cancel]

theorem nearest_neg (x : ℝ) : nearest (-x) = -nearest x := by
  rw [nearest, nearest, unitExponent_neg, neg_div, roundEven_neg]
  push_cast
  ring

@[simp] theorem nearest_zero : nearest 0 = 0 := by
  have := roundEven_intCast 0
  rw [Int.cast_zero] at this
  rw [nearest, zero_div, this, Int.cast_zero, zero_mul]

/-- Rounding does not jump up over a multiple of the unit. -/
theorem nearest_le_mul {x : ℝ} {n : ℤ} (h : x ≤ n * 2 ^ unitExponent x) :
    nearest x ≤ n * 2 ^ unitExponent x := by
  have hp : (0 : ℝ) < 2 ^ unitExponent x := zpow_pos (by norm_num) _
  have h' : x / 2 ^ unitExponent x ≤ n := (div_le_iff₀ hp).2 h
  have := roundEven_mono h'
  rw [roundEven_intCast] at this
  exact mul_le_mul_of_nonneg_right (by exact_mod_cast this) hp.le

theorem zpow_eq_mul_zpow {a b : ℤ} (h : b ≤ a) :
    (2 : ℝ) ^ a = ((2 ^ (a - b).toNat : ℤ) : ℝ) * 2 ^ b := by
  have e : a = ((a - b).toNat : ℤ) + b := by omega
  conv_lhs => rw [e, zpow_add₀ (by norm_num), zpow_natCast]
  push_cast
  rfl

/-- A point of a finer grid than the one around a number is not beyond `2^52` units. -/
theorem abs_le_units {m e t : ℤ} (hm : |m| ≤ 2 ^ 53) (h : e < t) :
    |(m : ℝ) * 2 ^ e| ≤ 2 ^ (t + 52) := by
  have hm' : |(m : ℝ)| ≤ 2 ^ (53 : ℤ) := by exact_mod_cast hm
  rw [abs_mul, abs_of_pos (zpow_pos (by norm_num : (0 : ℝ) < 2) e)]
  calc |(m : ℝ)| * 2 ^ e ≤ 2 ^ (53 : ℤ) * 2 ^ e :=
        mul_le_mul_of_nonneg_right hm' (zpow_pos (by norm_num) e).le
    _ = 2 ^ (53 + e) := (zpow_add₀ (by norm_num) _ _).symm
    _ ≤ 2 ^ (t + 52) := zpow_le_zpow_right₀ (by norm_num) (by omega)

/-- **Rounding does not jump up over a point of the grid.** -/
theorem nearest_le {x r : ℝ} (hr : OnGrid r) (h : x ≤ r) : nearest x ≤ r := by
  obtain rfl | hx := eq_or_ne x 0
  · rwa [nearest_zero]
  obtain ⟨m, e, hm, he, rfl⟩ := hr
  set t := unitExponent x with ht
  rcases le_or_gt t e with hte | hte
  · -- the point is a multiple of the unit
    have hmul : (m : ℝ) * 2 ^ e = ((m * 2 ^ (e - t).toNat : ℤ) : ℝ) * 2 ^ t := by
      rw [zpow_eq_mul_zpow hte]; push_cast; ring
    rw [hmul] at h ⊢
    exact nearest_le_mul h
  · -- the point is within `2^52` units of zero and the number is not
    have hr := abs_le.1 (abs_le_units hm hte)
    have hP := units_le_abs hx (by omega)
    rw [← ht] at hP
    have hPm : (2 : ℝ) ^ (t + 52) = ((2 ^ 52 : ℤ) : ℝ) * 2 ^ t := by
      rw [add_comm, zpow_add₀ (by norm_num)]; norm_num
    rcases lt_or_gt_of_ne hx with hneg | hpos
    · rw [abs_of_neg hneg] at hP
      have hle : x ≤ ((-2 ^ 52 : ℤ) : ℝ) * 2 ^ t := by
        rw [Int.cast_neg, neg_mul, ← hPm]; linarith
      refine (nearest_le_mul hle).trans ?_
      rw [Int.cast_neg, neg_mul, ← hPm]
      exact hr.1
    · rw [abs_of_pos hpos] at hP
      have hle : x ≤ ((2 ^ 52 : ℤ) : ℝ) * 2 ^ t := by
        rw [← hPm]; exact h.trans hr.2
      refine (nearest_le_mul hle).trans ?_
      rw [← hPm]
      exact hP.trans h

/-- **Rounding does not jump down over a point of the grid.** -/
theorem le_nearest {x r : ℝ} (hr : OnGrid r) (h : r ≤ x) : r ≤ nearest x := by
  have := nearest_le hr.neg (neg_le_neg h)
  rw [nearest_neg] at this
  exact neg_le_neg_iff.1 this

theorem abs_nearest_le {x r : ℝ} (hr : OnGrid r) (h : |x| ≤ r) : |nearest x| ≤ r := by
  rw [abs_le] at h ⊢
  exact ⟨le_nearest hr.neg h.1, nearest_le hr h.2⟩

/-- Rounding does not overflow far below the bound. -/
theorem abs_nearest_lt {x : ℝ} {k : ℕ} (hk : k < 1024) (h : |x| ≤ 2 ^ k) :
    |nearest x| < 2 ^ 1024 :=
  (abs_nearest_le (onGrid_pow k) h).trans_lt (pow_lt_pow_right₀ one_lt_two hk)

theorem nearest_of_onGrid {r : ℝ} (hr : OnGrid r) : nearest r = r :=
  le_antisymm (nearest_le hr le_rfl) (le_nearest hr le_rfl)

theorem nearest_nonneg {x : ℝ} (h : 0 ≤ x) : 0 ≤ nearest x :=
  le_nearest onGrid_zero h

theorem abs_nearest (x : ℝ) : |nearest x| = nearest |x| := by
  rcases le_total 0 x with h | h
  · rw [abs_of_nonneg h, abs_of_nonneg (nearest_nonneg h)]
  · have hneg : 0 ≤ nearest (-x) := nearest_nonneg (neg_nonneg.2 h)
    rw [abs_of_nonpos h, ← abs_of_nonneg hneg, nearest_neg, abs_neg]

theorem abs_roundEven_le {x : ℝ} {n : ℕ} (h : |x| ≤ n) : |roundEven x| ≤ n := by
  rw [abs_le] at h ⊢
  have h1 := roundEven_mono h.1
  have h2 := roundEven_mono h.2
  rw [show (-(n : ℝ)) = ((-n : ℤ) : ℝ) by push_cast; rfl, roundEven_intCast] at h1
  rw [show (n : ℝ) = ((n : ℤ) : ℝ) by push_cast; rfl, roundEven_intCast] at h2
  exact ⟨h1, h2⟩

theorem abs_div_units_lt (x : ℝ) : |x / 2 ^ unitExponent x| < 2 ^ 53 := by
  have hp : (0 : ℝ) < 2 ^ unitExponent x := zpow_pos (by norm_num) _
  rw [abs_div, abs_of_pos hp, div_lt_iff₀ hp]
  have := abs_lt_units x
  rw [add_comm, zpow_add₀ (by norm_num)] at this
  exact_mod_cast this

theorem onGrid_nearest (x : ℝ) : OnGrid (nearest x) :=
  ⟨_, _, by exact_mod_cast abs_roundEven_le (n := 2 ^ 53) (by exact_mod_cast (abs_div_units_lt x).le),
    le_unitExponent x, rfl⟩

theorem unitExponent_mono {x y : ℝ} (hx : 0 < x) (h : x ≤ y) : unitExponent x ≤ unitExponent y := by
  unfold unitExponent
  rw [abs_of_pos hx, abs_of_pos (hx.trans_le h)]
  have := Int.log_mono_right (b := 2) hx h
  omega

theorem nearest_mono_of_pos {x y : ℝ} (hx : 0 < x) (h : x ≤ y) : nearest x ≤ nearest y := by
  rcases (unitExponent_mono hx h).eq_or_lt with e | e
  · have hp : (0 : ℝ) < 2 ^ unitExponent y := zpow_pos (by norm_num) _
    have := roundEven_mono (div_le_div_of_nonneg_right h hp.le)
    rw [nearest, nearest, e]
    exact mul_le_mul_of_nonneg_right (by exact_mod_cast this) hp.le
  · -- a power of two lies between the two numbers
    have hy := units_le_abs (hx.trans_le h).ne' ((le_unitExponent x).trans_lt e)
    rw [abs_of_pos (hx.trans_le h)] at hy
    have hxp : x ≤ 2 ^ (unitExponent y + 52) := by
      have := abs_lt_units x
      rw [abs_of_pos hx] at this
      exact this.le.trans (zpow_le_zpow_right₀ (by norm_num) (by omega))
    have hgrid : OnGrid (2 ^ (unitExponent y + 52)) :=
      onGrid_zpow (by have := le_unitExponent y; omega)
    exact (nearest_le hgrid hxp).trans (le_nearest hgrid hy)

/-- **Rounding is monotone.** -/
theorem nearest_mono {x y : ℝ} (h : x ≤ y) : nearest x ≤ nearest y := by
  rcases lt_or_ge 0 x with hx | hx
  · exact nearest_mono_of_pos hx h
  rcases lt_or_ge y 0 with hy | hy
  · have := nearest_mono_of_pos (neg_pos.2 hy) (neg_le_neg h)
    rw [nearest_neg, nearest_neg] at this
    exact neg_le_neg_iff.1 this
  · exact (nearest_le onGrid_zero hx).trans (le_nearest onGrid_zero hy)

/-! ### The error -/

/-- **The error of rounding is at most half a unit.** -/
theorem abs_nearest_sub_le (x : ℝ) : |nearest x - x| ≤ 2 ^ unitExponent x / 2 := by
  have hp : (0 : ℝ) < 2 ^ unitExponent x := zpow_pos (by norm_num) _
  have e : nearest x - x = -((x / 2 ^ unitExponent x - roundEven (x / 2 ^ unitExponent x)) *
      2 ^ unitExponent x) := by
    rw [nearest, sub_mul, div_mul_cancel₀ _ hp.ne']
    ring
  rw [e, abs_neg, abs_mul, abs_of_pos hp]
  calc |x / 2 ^ unitExponent x - roundEven (x / 2 ^ unitExponent x)| * 2 ^ unitExponent x
      ≤ 1 / 2 * 2 ^ unitExponent x :=
        mul_le_mul_of_nonneg_right (abs_sub_roundEven_le _) hp.le
    _ = 2 ^ unitExponent x / 2 := by ring

/-- No multiple of the unit is nearer than the nearest one. -/
theorem abs_nearest_sub_le_units (x : ℝ) (n : ℤ) :
    |nearest x - x| ≤ |n * 2 ^ unitExponent x - x| := by
  have hp : (0 : ℝ) < 2 ^ unitExponent x := zpow_pos (by norm_num) _
  have hscale (k : ℤ) : |k * 2 ^ unitExponent x - x| =
      |x / 2 ^ unitExponent x - k| * 2 ^ unitExponent x := by
    rw [abs_sub_comm, ← abs_of_pos hp, ← abs_mul, abs_of_pos hp, sub_mul,
      div_mul_cancel₀ _ hp.ne']
  rw [nearest, hscale, hscale]
  exact mul_le_mul_of_nonneg_right (abs_sub_roundEven_le_abs_sub _ n) hp.le

/-- **No point of the grid is nearer than the nearest one.** -/
theorem abs_nearest_sub_le_abs_sub {x r : ℝ} (hr : OnGrid r) : |nearest x - x| ≤ |r - x| := by
  obtain rfl | hx := eq_or_ne x 0
  · rw [nearest_zero, sub_zero, abs_zero]
    exact abs_nonneg _
  obtain ⟨m, e, hm, he, rfl⟩ := hr
  set t := unitExponent x with ht
  rcases le_or_gt t e with hte | hte
  · -- the point is a multiple of the unit
    have hmul : (m : ℝ) * 2 ^ e = ((m * 2 ^ (e - t).toNat : ℤ) : ℝ) * 2 ^ t := by
      rw [zpow_eq_mul_zpow hte]; push_cast; ring
    rw [hmul]
    exact abs_nearest_sub_le_units x _
  · -- a multiple of the unit lies between the point and the number
    have hr := abs_le.1 (abs_le_units hm hte)
    have hP := units_le_abs hx (by omega)
    have hPm : (2 : ℝ) ^ (t + 52) = ((2 ^ 52 : ℤ) : ℝ) * 2 ^ t := by
      rw [add_comm, zpow_add₀ (by norm_num)]; norm_num
    rw [← ht, hPm] at hP
    rw [hPm] at hr
    rcases lt_or_gt_of_ne hx with hneg | hpos
    · rw [abs_of_neg hneg] at hP
      refine (abs_nearest_sub_le_units x (-2 ^ 52)).trans ?_
      rw [Int.cast_neg, neg_mul, ← ht, abs_of_nonneg (by linarith)]
      exact le_trans (by linarith) (le_abs_self _)
    · rw [abs_of_pos hpos] at hP
      refine (abs_nearest_sub_le_units x (2 ^ 52)).trans ?_
      rw [← ht, abs_of_nonpos (by linarith)]
      exact le_trans (by linarith) (neg_le_abs _)

/-- Away from zero the error is small against the number. -/
theorem abs_nearest_sub_le_mul {x : ℝ} (h : 1 ≤ |x|) : |nearest x - x| ≤ |x| / 2 ^ 53 := by
  have hx : x ≠ 0 := by rintro rfl; norm_num at h
  have hlog : 0 ≤ Int.log 2 |x| := by
    have := (Int.zpow_le_iff_le_log (b := 2) (by norm_num) (abs_pos.2 hx) (x := 0)).1
    exact this (by simpa using h)
  have hunit := units_le_abs hx (by unfold unitExponent; omega)
  rw [zpow_add₀ (by norm_num)] at hunit
  refine (abs_nearest_sub_le x).trans ?_
  rw [div_le_div_iff₀ (by norm_num) (by norm_num)]
  norm_num at hunit ⊢
  linarith

end Campaign.Binary64
