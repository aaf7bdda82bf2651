import Campaign.Proofs.Binary64.Cut

/-!
# The bits of a double

Packing a canonical form and unpacking it again gives the form back when its number is below the
overflow bound `2^1024`, and an infinity otherwise; and what bits unpack to is always canonical.

## Main statements

* `unpack_pack`, `unpack_pack_overflow`: packing loses nothing up to the overflow bound.
* `unpack_finite`: what the finite forms of bits are like.
-/

namespace Campaign.Binary64

open Float.Model (Format UnpackedFloat totalExponent)
open Float.Model.UnpackedFloat

/-! ### The three fields -/

theorem toNat_unpackMantissa (b : BitVec 64) :
    (@unpackMantissa .binary64 b).toNat = b.toNat % 2 ^ 52 := by
  simp [unpackMantissa]

theorem toNat_unpackExponent (b : BitVec 64) :
    (@unpackExponent .binary64 b).toNat = b.toNat / 2 ^ 52 % 2 ^ 11 := by
  simp [unpackExponent, Nat.shiftRight_eq_div_pow]

theorem toNat_unpackSign (b : BitVec 64) :
    (@unpackSign .binary64 b).toNat = b.toNat / 2 ^ 63 := by
  have h : b.toNat < 2 ^ 64 := b.isLt
  simp [unpackSign, Nat.shiftRight_eq_div_pow]
  omega

theorem toNat_append {n k : ℕ} (x : BitVec n) (y : BitVec k) :
    (x ++ y).toNat = x.toNat * 2 ^ k + y.toNat := by
  rw [BitVec.toNat_append, ← Nat.shiftLeft_add_eq_or_of_lt y.isLt, Nat.shiftLeft_eq]

/-! ### Packing and unpacking -/

theorem abs_signed (s : Sign) (r : ℝ) : |signed s r| = |r| := by
  cases s
  · exact abs_neg r
  · rfl

theorem abs_real_finite {s : Sign} {m : ℕ} {e : ℤ} {hm : 0 < m} :
    |real (.finite s m e hm)| = m * 2 ^ e := by
  rw [real, abs_signed, abs_of_nonneg (mul_nonneg (Nat.cast_nonneg m) (zpow_pos (by norm_num) e).le)]

theorem abs_real_lt {s : Sign} {m : ℕ} {e : ℤ} {hm : 0 < m} (h1 : m < 2 ^ 53) (h2 : e ≤ 971) :
    |real (.finite s m e hm)| < 2 ^ 1024 := by
  have hm2 : (m : ℝ) < 2 ^ (53 : ℤ) := by exact_mod_cast h1
  rw [abs_real_finite]
  have : (m : ℝ) * 2 ^ e < 2 ^ (1024 : ℤ) := calc
    (m : ℝ) * 2 ^ e < 2 ^ (53 : ℤ) * 2 ^ e := mul_lt_mul_of_pos_right hm2 (zpow_pos (by norm_num) e)
    _ = 2 ^ (53 + e) := (zpow_add₀ (by norm_num) _ _).symm
    _ ≤ 2 ^ (1024 : ℤ) := zpow_le_zpow_right₀ (by norm_num) (by omega)
  exact_mod_cast this

theorem le_abs_real {s : Sign} {m : ℕ} {e : ℤ} {hm : 0 < m} (h1 : 2 ^ 52 ≤ m) (h2 : 971 < e) :
    2 ^ 1024 ≤ |real (.finite s m e hm)| := by
  have hm2 : (2 : ℝ) ^ (52 : ℤ) ≤ m := by exact_mod_cast h1
  rw [abs_real_finite]
  have : (2 : ℝ) ^ (1024 : ℤ) ≤ m * 2 ^ e := calc
    (2 : ℝ) ^ (1024 : ℤ) ≤ 2 ^ (52 + e) := zpow_le_zpow_right₀ (by norm_num) (by omega)
    _ = 2 ^ (52 : ℤ) * 2 ^ e := zpow_add₀ (by norm_num) _ _
    _ ≤ m * 2 ^ e := mul_le_mul_of_nonneg_right hm2 (zpow_pos (by norm_num) e).le
  exact_mod_cast this

/-- The overflow bound, said with the exponent. -/
theorem abs_real_lt_iff {s : Sign} {m : ℕ} {e : ℤ} {hm : 0 < m}
    (hc : Canonical (.finite s m e hm)) : |real (.finite s m e hm)| < 2 ^ 1024 ↔ e ≤ 971 := by
  obtain ⟨h1, -, h2⟩ := hc
  refine ⟨fun h => ?_, abs_real_lt h1⟩
  by_contra hlt
  exact absurd h (not_lt.2 (le_abs_real (h2.resolve_right (by omega)) (by omega)))

theorem unpack_pack_zero (s : Sign) : unpack .binary64 (pack .binary64 (.zero s)) = .zero s := by
  cases s <;> rfl

theorem unpack_pack_infinity (s : Sign) :
    unpack .binary64 (pack .binary64 (.infinity s)) = .infinity s := by
  cases s <;> rfl

theorem pack_finite (s : Sign) {m : ℕ} {e : ℤ} (hm : 0 < m) (h4 : e ≤ 971) :
    UnpackedFloat.pack .binary64 (.finite s m e hm) =
      packComponents .binary64 s (BitVec.ofNat 11 (if m.log2 = 52 then (e + 1075).toNat else 0))
        (BitVec.ofNat 52 m) := by
  have hb : (e + (1023 : ℕ) + (52 : ℕ)).toNat = (e + 1075).toNat := by omega
  have hlog : (m.log2 + 1 = 1 + 52) = (m.log2 = 52) := by simp only [eq_iff_iff]; omega
  simp only [UnpackedFloat.pack, Format.exponentBias, Format.mantissaBits, Nat.reducePow,
    Nat.reduceSub, hb, hlog]
  rw [if_neg (by omega)]
  split_ifs <;> rfl

/-- Unpacking, said with the numbers that the three fields hold. -/
theorem unpack_eq (b : BitVec 64) {s : Sign} {E M : ℕ}
    (hs : Sign.ofBitVec (@unpackSign .binary64 b) = s)
    (hE : (@unpackExponent .binary64 b).toNat = E)
    (hM : (@unpackMantissa .binary64 b).toNat = M) :
    UnpackedFloat.unpack .binary64 b =
      if E = 2047 then if M = 0 then .infinity s else .notANumber
      else if h : E = 0 ∧ M = 0 then .zero s
      else .finite s (if E = 0 then M else 2 ^ 52 + M) (if E = 0 then -1074 else E - 1075) (by
        split_ifs <;> omega) := by
  have e1 : @unpackExponent .binary64 b = -1#_ ↔ E = 2047 := by
    rw [← hE, ← BitVec.toNat_inj]; rfl
  have e2 : @unpackExponent .binary64 b = 0#_ ↔ E = 0 := by
    rw [← hE, ← BitVec.toNat_inj]; rfl
  have e3 : @unpackMantissa .binary64 b = 0#_ ↔ M = 0 := by
    rw [← hM, ← BitVec.toNat_inj]; rfl
  have e4 : (1#1 ++ @unpackMantissa .binary64 b).toNat = 2 ^ 52 + M := by
    rw [toNat_append, hM]; rfl
  unfold UnpackedFloat.unpack
  simp only [e1, e2, e3, e4, hs, hE, hM]
  split_ifs <;> simp_all [Format.exponentBias]

theorem unpack_packComponents (s : Sign) {E M : ℕ} (hE : E < 2047) (hM : M < 2 ^ 52) :
    UnpackedFloat.unpack .binary64
        (packComponents .binary64 s (BitVec.ofNat 11 E) (BitVec.ofNat 52 M)) =
      if h : E = 0 ∧ M = 0 then .zero s
      else .finite s (if E = 0 then M else 2 ^ 52 + M) (if E = 0 then -1074 else E - 1075) (by
        split_ifs <;> omega) := by
  rw [unpack_eq (s := s) (E := E) (M := M), if_neg (by omega)]
  · rw [unpackSign_packComponents, Sign.ofBitVec_toBitVec]
  · rw [unpackExponent_packComponents, BitVec.toNat_ofNat, Nat.mod_eq_of_lt (show E < 2 ^ 11 by omega)]
  · rw [unpackMantissa_packComponents, BitVec.toNat_ofNat, Nat.mod_eq_of_lt hM]

theorem finite_congr {s : Sign} {m n : ℕ} {e f : ℤ} {hm : 0 < m} {hn : 0 < n} (h1 : m = n)
    (h2 : e = f) : UnpackedFloat.finite s m e hm = .finite s n f hn := by
  subst h1 h2
  rfl

theorem log2_eq_iff {m : ℕ} (hm : 0 < m) (h : m < 2 ^ 53) : m.log2 = 52 ↔ 2 ^ 52 ≤ m := by
  rw [← Nat.le_log2 hm.ne']
  have := (Nat.log2_lt hm.ne').2 h
  omega

/-- **A canonical form below the overflow bound is packed without loss.** -/
theorem unpack_pack {u : UnpackedFloat} (hc : Canonical u) (h : |real u| < 2 ^ 1024) :
    UnpackedFloat.unpack .binary64 (UnpackedFloat.pack .binary64 u) = u := by
  cases u with
  | infinity s => exact hc.elim
  | notANumber => exact hc.elim
  | zero s => exact unpack_pack_zero s
  | finite s m e hm =>
    have he := (abs_real_lt_iff hc).1 h
    obtain ⟨h1, h2, h3⟩ := hc
    rw [pack_finite s hm he]
    simp only [log2_eq_iff hm h1]
    by_cases hn : 2 ^ 52 ≤ m
    · have e1 : BitVec.ofNat 52 m = BitVec.ofNat 52 (m - 2 ^ 52) := by
        apply BitVec.eq_of_toNat_eq
        simp only [BitVec.toNat_ofNat]
        omega
      rw [if_pos hn, e1, unpack_packComponents s (by omega) (by omega), dif_neg (by omega)]
      simp only [if_neg (show (e + 1075).toNat ≠ 0 by omega)]
      exact finite_congr (by omega) (by omega)
    · rw [if_neg hn, unpack_packComponents s (by omega) (by omega), dif_neg (by omega)]
      simp only [if_true]
      exact finite_congr rfl (by omega)

/-- **A canonical form beyond the overflow bound becomes the infinity of its sign.** -/
theorem unpack_pack_overflow {u : UnpackedFloat} (hc : Canonical u) (h : 2 ^ 1024 ≤ |real u|) :
    ∃ s, 0 < signed s (real u) ∧
      UnpackedFloat.unpack .binary64 (UnpackedFloat.pack .binary64 u) = .infinity s := by
  cases u with
  | infinity s => exact hc.elim
  | notANumber => exact hc.elim
  | zero s => exact absurd h (not_le.2 (by simp only [real, abs_zero]; positivity))
  | finite s m e hm =>
    have hpos : 0 < signed s (real (.finite s m e hm)) := by
      have hmagnitude : (0 : ℝ) < m * 2 ^ e := by positivity
      cases s with
      | negative => simpa [signed, real] using hmagnitude
      | positive => exact hmagnitude
    refine ⟨s, hpos, ?_⟩
    have he : 971 < e := by
      by_contra hle
      exact absurd ((abs_real_lt_iff hc).2 (by omega)) (not_lt.2 h)
    obtain ⟨h1, h2, h3⟩ := hc
    have hpack : UnpackedFloat.pack .binary64 (.finite s m e hm) = packedInfinity .binary64 s := by
      simp only [UnpackedFloat.pack, Format.exponentBias, Nat.reducePow, Nat.reduceSub]
      exact if_pos (by omega)
    rw [hpack]
    exact unpack_pack_infinity s

/-! ### What bits unpack to -/

theorem toNat_fields (b : BitVec 64) :
    b.toNat = 2 ^ 63 * (@unpackSign .binary64 b).toNat +
      2 ^ 52 * (@unpackExponent .binary64 b).toNat +
      (@unpackMantissa .binary64 b).toNat := by
  rw [toNat_unpackSign, toNat_unpackExponent, toNat_unpackMantissa]
  have := b.isLt
  omega

/-- Bits by the numbers that their fields hold, and what these unpack to. -/
theorem exists_unpack_eq (b : BitVec 64) :
    ∃ (s : Sign) (E M : ℕ), E < 2 ^ 11 ∧ M < 2 ^ 52 ∧
      b.toNat = 2 ^ 63 * s.toBitVec.toNat + 2 ^ 52 * E + M ∧
      UnpackedFloat.unpack .binary64 b =
        if E = 2047 then if M = 0 then .infinity s else .notANumber
        else if h : E = 0 ∧ M = 0 then .zero s
        else .finite s (if E = 0 then M else 2 ^ 52 + M) (if E = 0 then -1074 else E - 1075) (by
          split_ifs <;> omega) := by
  refine ⟨_, _, _, BitVec.isLt _, BitVec.isLt _, ?_, unpack_eq b rfl rfl rfl⟩
  rw [Sign.toBitVec_ofBitVec]
  exact toNat_fields b

/-- **The finite forms that bits unpack to, and their bits**: the sign, and the exponent and the
mantissa as one number in which a carry of the mantissa runs into the exponent. -/
theorem unpack_finite {b : BitVec 64} {s : Sign} {m : ℕ} {e : ℤ} {hm : 0 < m}
    (h : UnpackedFloat.unpack .binary64 b = .finite s m e hm) :
    Canonical (.finite s m e hm) ∧ e ≤ 971 ∧
      b.toNat = 2 ^ 63 * s.toBitVec.toNat + 2 ^ 52 * (e + 1074).toNat + m := by
  obtain ⟨s', E, M, hE, hM, hb, hunpack⟩ := exists_unpack_eq b
  rw [hunpack] at h
  split_ifs at h with h1 h2 h3 h4
  all_goals
    obtain ⟨rfl, e2, e3⟩ := UnpackedFloat.finite.injEq .. ▸ h
    refine ⟨⟨?_, ?_, ?_⟩, ?_, ?_⟩ <;> omega

theorem unpack_zero {b : BitVec 64} {s : Sign} (h : UnpackedFloat.unpack .binary64 b = .zero s) :
    b.toNat = 2 ^ 63 * s.toBitVec.toNat := by
  obtain ⟨s', E, M, -, -, hb, hunpack⟩ := exists_unpack_eq b
  rw [hunpack] at h
  split_ifs at h with h1 h2 h3
  obtain rfl := UnpackedFloat.zero.inj h
  omega

theorem unpack_infinity {b : BitVec 64} {s : Sign}
    (h : UnpackedFloat.unpack .binary64 b = .infinity s) :
    b.toNat = 2 ^ 63 * s.toBitVec.toNat + 2 ^ 52 * 2047 := by
  obtain ⟨s', E, M, -, -, hb, hunpack⟩ := exists_unpack_eq b
  rw [hunpack] at h
  split_ifs at h with h1 h2
  obtain rfl := UnpackedFloat.infinity.inj h
  omega

end Campaign.Binary64
