import Campaign.Proofs.Binary64.Finite

/-!
# Whole part and fraction of a double

A double that is used as an index is split into its whole part and the fraction behind it. Nothing
is lost: the whole part of a double and the fraction are doubles themselves, the first because
doubles from `2^53` on are whole, the second because it needs no finer unit than the double.

## Main statements

* `HasValue.floor`, `HasValue.fract`: both parts are exact.
* `ceilNat_eq`: the lowest index that is not below a double.
-/

namespace Campaign.Binary64

/-- The fraction of a point of the grid is on the grid. -/
theorem OnGrid.fract {r : ℝ} (hr : OnGrid r) (h0 : 0 ≤ r) : OnGrid (Int.fract r) := by
  obtain ⟨m, e, hm, he, rfl⟩ := hr
  obtain hwhole | hpart := le_or_gt 0 e
  · have hinteger : (m : ℝ) * 2 ^ e = ((m * 2 ^ e.toNat : ℤ) : ℝ) := by
      rw [zpow_eq_mul_zpow hwhole]
      push_cast
      simp
    rw [hinteger, Int.fract_intCast]
    exact onGrid_zero
  · -- both parts are multiples of the unit of the number
    have hpower : (0 : ℝ) < 2 ^ e := by positivity
    set n := ⌊(m : ℝ) * 2 ^ e⌋ with hn
    have hn0 : 0 ≤ n := Int.floor_nonneg.2 h0
    have hscale : (n : ℝ) = (n * 2 ^ (0 - e).toNat : ℤ) * 2 ^ e := by
      have hone := zpow_eq_mul_zpow hpart.le
      rw [zpow_zero] at hone
      rw [Int.cast_mul, mul_assoc, ← hone, mul_one]
    have hrest : Int.fract ((m : ℝ) * 2 ^ e) = (m - n * 2 ^ (0 - e).toNat : ℤ) * 2 ^ e := by
      rw [Int.fract, ← hn, Int.cast_sub, sub_mul, ← hscale]
    have hnonneg : 0 ≤ m - n * 2 ^ (0 - e).toNat := by
      have := Int.fract_nonneg ((m : ℝ) * 2 ^ e)
      rw [hrest] at this
      exact_mod_cast nonneg_of_mul_nonneg_left this hpower
    have hpos : 0 ≤ n * 2 ^ (0 - e).toNat := by positivity
    rw [hrest]
    refine ⟨_, e, ?_, he, rfl⟩
    rw [abs_of_nonneg hnonneg]
    exact (sub_le_self _ hpos).trans ((le_abs_self m).trans hm)

section

variable {x : Float} {r : ℝ}

/-- **The whole part of a double** is a double. -/
theorem HasValue.floor (hx : HasValue x r) (h0 : 0 ≤ r) : HasValue ⌊r⌋₊.toFloat ⌊r⌋₊ := by
  obtain hsmall | hlarge := lt_or_ge r (2 ^ 53)
  · have hle : ⌊r⌋₊ ≤ 2 ^ 53 := by exact_mod_cast (Nat.floor_le h0).trans hsmall.le
    exact hasValue_natCast hle
  · obtain ⟨-, k, hk⟩ := hx.onGrid.half_of_large hlarge
    have hr : r = ((2 * k : ℕ) : ℝ) := by
      push_cast
      linarith
    have hnearest : nearest r = r := nearest_of_onGrid hx.onGrid
    have hlt := hx.abs_lt
    rw [hr] at hnearest hlt ⊢
    rw [Nat.floor_natCast]
    have hvalue := hasValue_natCast_nearest (by rwa [hnearest])
    rwa [hnearest] at hvalue

/-- **The lowest index that is not below a double.** -/
theorem ceilNat_eq (hx : HasValue x r) (h0 : 0 ≤ r) (h1 : r < 2 ^ 64) : ceilNat x = ⌈r⌉₊ := by
  simp only [ceilNat, truncate_eq hx h0 h1, (hx.floor h0).lt_iff hx]
  split_ifs with hpart
  · symm
    rw [Nat.ceil_eq_iff (Nat.succ_ne_zero _)]
    exact ⟨hpart, by exact_mod_cast (Nat.lt_floor_add_one r).le⟩
  · have hwhole : r = ⌊r⌋₊ := le_antisymm (not_lt.1 hpart) (Nat.floor_le h0)
    rw [hwhole, Nat.floor_natCast, Nat.ceil_natCast]

/-- **The fraction of a double** is a double, and it is computed without an error. -/
theorem HasValue.fract (hx : HasValue x r) (h0 : 0 ≤ r) (h1 : r < 2 ^ 64) :
    HasValue (x - (truncate x).toFloat) (Int.fract r) := by
  have hrest : r - ⌊r⌋₊ = Int.fract r := by
    rw [natCast_floor_eq_intCast_floor h0]
    rfl
  have hlt : |Int.fract r| < 2 ^ 1024 := by
    rw [abs_of_nonneg (Int.fract_nonneg r)]
    exact (Int.fract_lt_one r).trans (one_lt_pow₀ one_lt_two (by norm_num))
  rw [truncate_eq hx h0 h1]
  rw [← hrest] at hlt ⊢
  exact hx.sub_exact (hx.floor h0) (hrest ▸ hx.onGrid.fract h0) hlt

end

end Campaign.Binary64
