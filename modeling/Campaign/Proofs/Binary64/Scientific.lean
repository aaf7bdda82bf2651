import Campaign.Proofs.Binary64.Order

/-!
# Doubles from decimals

A coefficient and a power of ten give the double nearest to their product, as long as it does not
overflow: small coefficients by one operation on two exact doubles, the others by rounding the exact
product or quotient. Powers of ten far beyond the doubles are not computed; below the least double
everything rounds to zero.

## Main statements

* `hasValue_table`: the tabulated powers of ten are exact;
* `hasValue_ofScientific`: a decimal as a double.
-/

namespace Campaign.Binary64

open Float.Model (Format UnpackedFloat totalExponent)
open Float.Model.UnpackedFloat

/-! ### Finite doubles by their exact value -/

/-- What a double is of which the exact value is known. -/
theorem unpack_of_value {x : Float} {s : Bool} {m : ℕ} {q : ℤ} (h : value x = .finite s m q) :
    (∃ t, x.toModel.unpack = .zero t ∧ m = 0) ∨ ∃ t hm, x.toModel.unpack = .finite t m q hm := by
  unfold value at h
  cases hu : x.toModel.unpack with
  | infinity t => simp [hu] at h
  | notANumber => simp [hu] at h
  | zero t =>
    simp only [hu, Value.finite.injEq] at h
    exact .inl ⟨t, rfl, h.2.1.symm⟩
  | finite t n e hn =>
    simp only [hu, Value.finite.injEq] at h
    obtain ⟨-, rfl, rfl⟩ := h
    exact .inr ⟨t, hn, rfl⟩

theorem isFinite_of_value {x : Float} {s : Bool} {m : ℕ} {q : ℤ} (h : value x = .finite s m q) :
    x.isFinite = true := by
  change x.toModel.unpack.isFinite = true
  obtain ⟨t, hu, -⟩ | ⟨t, hm, hu⟩ := unpack_of_value h <;> rw [hu] <;> rfl

theorem not_isInf_of_value {x : Float} {s : Bool} {m : ℕ} {q : ℤ} (h : value x = .finite s m q) :
    x.isInf = false := by
  change x.toModel.unpack.isInf = false
  obtain ⟨t, hu, -⟩ | ⟨t, hm, hu⟩ := unpack_of_value h <;> rw [hu] <;> rfl

theorem exists_value_of_isFinite {x : Float} (h : x.isFinite = true) :
    ∃ s m q, value x = .finite s m q := by
  change x.toModel.unpack.isFinite = true at h
  unfold value
  cases hu : x.toModel.unpack with
  | infinity t => simp [hu, UnpackedFloat.isFinite] at h
  | notANumber => simp [hu, UnpackedFloat.isFinite] at h
  | zero t => exact ⟨_, _, _, rfl⟩
  | finite t n e hn => exact ⟨_, _, _, rfl⟩

/-! ### Tabulated powers -/

/-- The double of `10^k` has the leading binary digits of `10^k`, and no others are lost. -/
theorem value_table : ∀ k : Fin Float.exactlyRepresentablePowersOfTen.size,
    value Float.exactlyRepresentablePowersOfTen[k] =
        .finite false (10 ^ k.1 * 2 ^ 52 / 2 ^ (10 ^ k.1).log2) ((10 ^ k.1).log2 - 52) ∧
      2 ^ (10 ^ k.1).log2 ∣ 10 ^ k.1 * 2 ^ 52 := by
  decide

theorem hasValue_table {k : ℕ} (h : k < Float.exactlyRepresentablePowersOfTen.size) :
    HasValue Float.exactlyRepresentablePowersOfTen[k] (10 ^ k) := by
  obtain ⟨hv, hd⟩ := value_table ⟨k, h⟩
  simp only [Fin.getElem_fin] at hv hd
  generalize Float.exactlyRepresentablePowersOfTen[k] = x at hv
  refine ⟨isFinite_of_value hv, ?_⟩
  have hp : (2 : ℝ) ^ (10 ^ k).log2 ≠ 0 := by positivity
  rw [toReal_of_value hv, if_neg (by simp), Nat.cast_div hd (by exact_mod_cast hp),
    zpow_sub₀ two_ne_zero]
  push_cast
  rw [zpow_natCast]
  field_simp
  norm_num

/-! ### Products and quotients -/

/-- A number below half of the least double is rounded to zero. -/
theorem nearest_eq_zero {y : ℝ} (h0 : 0 < y) (h : y < 2 ^ (-1075 : ℤ)) : nearest y = 0 := by
  have hlog : Int.log 2 y < -1075 :=
    (Int.lt_zpow_iff_log_lt (by norm_num) h0).1 (by exact_mod_cast h)
  have hunit : unitExponent y = -1074 := by
    unfold unitExponent
    rw [abs_of_pos h0]
    omega
  have hround : roundEven (y / 2 ^ (-1074 : ℤ)) = 0 := by
    have hp : (0 : ℝ) < 2 ^ (-1074 : ℤ) := by positivity
    have hhalf : y / 2 ^ (-1074 : ℤ) < 1 / 2 := by
      rw [div_lt_iff₀ hp]
      calc y < 2 ^ (-1075 : ℤ) := h
        _ = 1 / 2 * 2 ^ (-1074 : ℤ) := by
          rw [show (-1075 : ℤ) = -1 + -1074 by norm_num, zpow_add₀ two_ne_zero, zpow_neg_one]
          norm_num
    have hpos : 0 ≤ y / 2 ^ (-1074 : ℤ) := by positivity
    refine roundEven_eq ?_ fun _ => rfl
    rw [Int.cast_zero, sub_zero, abs_of_nonneg hpos]
    exact hhalf.le
  rw [nearest, hunit, hround, Int.cast_zero, zero_mul]

section

variable {m : ℕ} (hm : 0 < m) {e : ℤ}
include hm

/-- Coefficient and power are multiplied as integers, in units of `2^-53`. -/
theorem ofScientific_mul (he : 0 ≤ e) :
    let u := mul .binary64
      (.finite .positive (m <<< 53) (-53) (by rw [Nat.shiftLeft_eq]; positivity))
      (.finite .positive (10 ^ e.toNat) 0 (by positivity))
    Canonical u ∧ real u = nearest (m * 10 ^ e) := by
  have hm0 : (1 : ℝ) ≤ m := by exact_mod_cast hm
  have hpower : (10 : ℝ) ^ e = ((10 ^ e.toNat : ℕ) : ℝ) := by
    conv_lhs => rw [← Int.toNat_of_nonneg he, zpow_natCast]
    norm_cast
  have hone : (1 : ℝ) ≤ m * 10 ^ e := one_le_mul_of_one_le_of_one_le hm0
    (one_le_zpow₀ (by norm_num) he)
  have hshift : (m : ℝ) * (10 : ℝ) ^ e / (2 : ℝ) ^ (-53 : ℤ) =
      ((m <<< 53 * 10 ^ e.toNat : ℕ) : ℝ) := by
    rw [hpower, Nat.shiftLeft_eq, zpow_neg, div_inv_eq_mul]
    push_cast
    norm_num
    ring
  have hunit : (-53 : ℤ) ≤ unitExponent (m * 10 ^ e) := by
    refine le_unitExponent_of_le (le_trans ?_ hone)
    norm_num
  have := roundWithAccuracy_spec (.positive * .positive) .exact (m := m <<< 53 * 10 ^ e.toNat)
    (e := -53) (zero_lt_one.trans_le hone) (by rw [hshift]; exact cut_exact _) hunit
  exact this

/-- The quotient is cut where it has enough digits. -/
theorem ofScientific_div (he : e < 0) :
    let u := div .binary64 (.finite .positive m 0 hm)
      (.finite .positive (10 ^ (-e).toNat) 0 (by positivity))
    Canonical u ∧ real u = nearest (m * 10 ^ e) := by
  have hpower : (10 : ℝ) ^ e = (((10 ^ (-e).toNat : ℕ) : ℝ))⁻¹ := by
    conv_lhs =>
      rw [← neg_neg e, zpow_neg, ← Int.toNat_of_nonneg (show 0 ≤ -e by omega), zpow_natCast]
    push_cast
    rfl
  have hvalue : (m : ℝ) * 2 ^ (0 : ℤ) / (((10 ^ (-e).toNat : ℕ) : ℝ) * 2 ^ (0 : ℤ)) =
      m * 10 ^ e := by
    rw [zpow_zero, mul_one, mul_one, hpower, div_eq_mul_inv]
  have hn : 0 < 10 ^ (-e).toNat := by positivity
  have hpos : (0 : ℝ) < m * 10 ^ e := by
    have : (0 : ℝ) < m := by exact_mod_cast hm
    positivity
  have := roundWithAccuracy_spec (.positive / .positive) _ (by rw [hvalue]; exact hpos)
    (divCore_cut hn 0 0) ((min_le_right _ _).trans (div_exponent_le hm hn 0 0))
  rw [hvalue] at this
  exact this

theorem ofScientific_canonical (h : |nearest (m * 10 ^ e)| < 2 ^ 1024) :
    Canonical (ofScientific .binary64 m e) ∧
      real (ofScientific .binary64 m e) = nearest (m * 10 ^ e) := by
  have hm0 : (1 : ℝ) ≤ m := by exact_mod_cast hm
  unfold ofScientific
  rw [dif_neg hm.ne']
  split_ifs with hlarge hsmall hsign
  · -- the product overflows
    have hlarge : (1024 : ℤ) ≤ e := by
      simp only at hlarge
      omega
    have hge : (2 : ℝ) ^ 1024 ≤ m * 10 ^ e := calc
      (2 : ℝ) ^ 1024 = 2 ^ (1024 : ℤ) := (zpow_ofNat 2 1024).symm
      _ ≤ 2 ^ e := zpow_le_zpow_right₀ (by norm_num) hlarge
      _ ≤ 10 ^ e := zpow_le_zpow_left₀ (by omega) (by norm_num) (by norm_num)
      _ ≤ m * 10 ^ e := le_mul_of_one_le_left (by positivity) hm0
    have := (le_nearest (onGrid_pow 1024) hge).trans (le_abs_self _)
    exact absurd h (not_lt.2 this)
  · -- the quotient is below the least double
    have hsmall : e + m.log2 < -2048 := by
      simp only at hsmall
      omega
    have hpower : (10 : ℝ) ^ e ≤ 2 ^ e := by
      have hge : (2 : ℝ) ^ (-e) ≤ 10 ^ (-e) :=
        zpow_le_zpow_left₀ (by omega) (by norm_num) (by norm_num)
      simpa [zpow_neg] using inv_anti₀ (by positivity) hge
    have hlt : (m : ℝ) * 10 ^ e < 2 ^ (-1075 : ℤ) := calc
      (m : ℝ) * 10 ^ e < 2 ^ ((m.log2 : ℤ) + 1) * 10 ^ e := by
        gcongr
        exact_mod_cast Nat.lt_log2_self (n := m)
      _ ≤ 2 ^ ((m.log2 : ℤ) + 1) * 2 ^ e := by
        gcongr
      _ = 2 ^ ((m.log2 : ℤ) + 1 + e) := (zpow_add₀ two_ne_zero _ _).symm
      _ ≤ 2 ^ (-1075 : ℤ) := zpow_le_zpow_right₀ (by norm_num) (by omega)
    rw [nearest_eq_zero (by positivity) hlt]
    exact ⟨trivial, rfl⟩
  · exact ofScientific_mul hm hsign
  · exact ofScientific_div hm (by omega)

end

/-! ### Decimals -/

/-- **A decimal as a double.** -/
theorem hasValue_ofScientific {m : ℕ} (hm : 0 < m) (negative : Bool) (k : ℕ)
    (h : |nearest (m * 10 ^ (if negative then -(k : ℤ) else k))| < 2 ^ 1024) :
    HasValue (Float.ofScientific m negative k)
      (nearest (m * 10 ^ (if negative then -(k : ℤ) else k))) := by
  unfold Float.ofScientific
  by_cases hsmall : m < 2 ^ 53 ∧ k ≤ 22
  · have hm := hasValue_ofUInt64 hsmall.1
    have hk := hasValue_table (k := k) (Nat.lt_succ_of_le hsmall.2)
    rw [dif_pos hsmall]
    cases negative with
    | true =>
      have hvalue : (m : ℝ) * 10 ^ (-(k : ℤ)) = m / 10 ^ k := by
        rw [zpow_neg, zpow_natCast, div_eq_mul_inv]
      simp only [if_true, hvalue] at h ⊢
      exact hm.div hk (by positivity) h
    | false =>
      have hvalue : (m : ℝ) * 10 ^ (k : ℤ) = m * 10 ^ k := by rw [zpow_natCast]
      simp only [Bool.false_eq_true, if_false, hvalue] at h ⊢
      exact hm.mul hk h
  · rw [dif_neg hsmall]
    cases negative with
    | true =>
      have hexponent : Int.negOfNat k = -(k : ℤ) := Int.negOfNat_eq
      simp only [if_true, hexponent] at h ⊢
      exact hasValue_ofModel (ofScientific_canonical hm h) h
    | false => exact hasValue_ofModel (ofScientific_canonical hm h) h

/-- Zero, whatever the power. -/
theorem hasValue_ofScientific_zero (negative : Bool) (k : ℕ) :
    HasValue (Float.ofScientific 0 negative k) 0 := by
  unfold Float.ofScientific
  by_cases hk : k ≤ 22
  · have hzero := hasValue_ofUInt64 (n := 0) (by norm_num)
    have hpower := hasValue_table (k := k) (Nat.lt_succ_of_le hk)
    rw [Nat.cast_zero] at hzero
    rw [dif_pos ⟨by norm_num, hk⟩]
    cases negative with
    | true =>
      have := hzero.div_exact hpower (by positivity) (by rw [zero_div]; exact onGrid_zero)
        (by rw [zero_div, abs_zero]; positivity)
      rwa [zero_div] at this
    | false =>
      have := hzero.mul_exact hpower (by rw [zero_mul]; exact onGrid_zero)
        (by rw [zero_mul, abs_zero]; positivity)
      rwa [zero_mul] at this
  · rw [dif_neg fun h => hk h.2]
    refine hasValue_ofModel (u := ofScientific .binary64 0 _) ?_ (by rw [abs_zero]; positivity)
    unfold ofScientific
    rw [dif_pos rfl]
    exact ⟨trivial, rfl⟩

end Campaign.Binary64
