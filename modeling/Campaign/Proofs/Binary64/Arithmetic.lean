import Campaign.Proofs.Binary64.Encoding
import Campaign.Proofs.Binary64.Operations

/-!
# Doubles as real numbers

Every finite double stands for a real number. As long as nothing overflows, an operation on finite
doubles gives the double that stands for the nearest point of the grid; and when the exact result is
itself on the grid, the operation is exact.

## Main statements

* `HasValue.add`, `HasValue.sub`, `HasValue.mul`, `HasValue.div`, `HasValue.sqrt`: the operations.
* `HasValue.add_exact` and its like: exact results.
* `hasValue_natCast`: a natural number as a double.
-/

namespace Campaign.Binary64

open Float.Model (Format UnpackedFloat totalExponent)
open Float.Model.UnpackedFloat

theorem hasValue_toReal {x : Float} (h : x.isFinite = true) : HasValue x (toReal x) := ⟨h, rfl⟩

/-! ### The form of a double -/

theorem toReal_eq_real (x : Float) : toReal x = real x.toModel.unpack := by
  unfold toReal value
  rcases x.toModel.unpack with s | _ | s | ⟨s, m, e, hm⟩
  · rfl
  · rfl
  · cases s <;> simp [value.isNegative, real]
  · cases s <;> simp [value.isNegative, real, signed]

theorem canonical_of_isFinite {x : Float} (h : x.isFinite = true) : Canonical x.toModel.unpack := by
  change x.toModel.unpack.isFinite = true at h
  rcases hu : x.toModel.unpack with s | _ | s | ⟨s, m, e, hm⟩
  · rw [hu] at h; exact absurd h Bool.false_ne_true
  · rw [hu] at h; exact absurd h Bool.false_ne_true
  · trivial
  · exact (unpack_finite hu).1

theorem HasValue.canonical {x : Float} {r : ℝ} (h : HasValue x r) :
    Canonical x.toModel.unpack ∧ real x.toModel.unpack = r :=
  ⟨canonical_of_isFinite h.isFinite, (toReal_eq_real x).symm.trans h.toReal_eq⟩

theorem HasValue.onGrid {x : Float} {r : ℝ} (h : HasValue x r) : OnGrid r := by
  rw [← h.canonical.2]
  exact onGrid_real h.canonical.1

/-- A finite double is below the overflow bound. -/
theorem HasValue.abs_lt {x : Float} {r : ℝ} (h : HasValue x r) : |r| < 2 ^ 1024 := by
  obtain ⟨hc, rfl⟩ := h.canonical
  rcases hu : x.toModel.unpack with s | _ | s | ⟨s, m, e, hm⟩
  · simp [real]
  · simp [real]
  · simp [real]
  · obtain ⟨⟨h1, -, -⟩, h2, -⟩ := unpack_finite hu
    exact abs_real_lt h1 h2

/-- A double that is packed from a canonical form. -/
theorem hasValue_ofModel {u : UnpackedFloat} {r : ℝ} (hu : Canonical u ∧ real u = r)
    (h : |r| < 2 ^ 1024) : HasValue (.ofModel (.pack u)) r := by
  obtain ⟨hc, rfl⟩ := hu
  have hu : (Float.Model.pack u).unpack = u := unpack_pack hc h
  refine ⟨?_, ?_⟩
  · change (Float.Model.pack u).unpack.isFinite = true
    rw [hu]
    cases u with
    | infinity s => exact hc.elim
    | notANumber => exact hc.elim
    | zero s => rfl
    | finite s m e hm => rfl
  · rw [toReal_eq_real]
    exact congrArg real hu

/-! ### The operations -/

section

variable {x y : Float} {a b : ℝ}

theorem HasValue.add (hx : HasValue x a) (hy : HasValue y b) (h : |nearest (a + b)| < 2 ^ 1024) :
    HasValue (x + y) (nearest (a + b)) := by
  obtain ⟨hcx, rfl⟩ := hx.canonical
  obtain ⟨hcy, rfl⟩ := hy.canonical
  exact hasValue_ofModel (add_spec hcx hcy) h

theorem HasValue.sub (hx : HasValue x a) (hy : HasValue y b) (h : |nearest (a - b)| < 2 ^ 1024) :
    HasValue (x - y) (nearest (a - b)) := by
  obtain ⟨hcx, rfl⟩ := hx.canonical
  obtain ⟨hcy, rfl⟩ := hy.canonical
  exact hasValue_ofModel (sub_spec hcx hcy) h

theorem HasValue.mul (hx : HasValue x a) (hy : HasValue y b) (h : |nearest (a * b)| < 2 ^ 1024) :
    HasValue (x * y) (nearest (a * b)) := by
  obtain ⟨hcx, rfl⟩ := hx.canonical
  obtain ⟨hcy, rfl⟩ := hy.canonical
  exact hasValue_ofModel (mul_spec hcx hcy) h

theorem HasValue.div (hx : HasValue x a) (hy : HasValue y b) (hb : b ≠ 0)
    (h : |nearest (a / b)| < 2 ^ 1024) : HasValue (x / y) (nearest (a / b)) := by
  obtain ⟨hcx, rfl⟩ := hx.canonical
  obtain ⟨hcy, rfl⟩ := hy.canonical
  exact hasValue_ofModel (div_spec hcx hcy hb) h

theorem HasValue.neg (hx : HasValue x a) : HasValue (-x) (-a) := by
  have h := hx.abs_lt
  obtain ⟨hcx, rfl⟩ := hx.canonical
  exact hasValue_ofModel ⟨canonical_neg hcx, real_neg _⟩ (by rwa [abs_neg])

/-- A square root never overflows. -/
theorem HasValue.sqrt (hx : HasValue x a) (h0 : 0 ≤ a) :
    HasValue x.sqrt (nearest (Real.sqrt a)) := by
  have h := hx.abs_lt
  obtain ⟨hcx, rfl⟩ := hx.canonical
  refine hasValue_ofModel (sqrt_spec hcx h0) ?_
  have hle : Real.sqrt (real x.toModel.unpack) ≤ 2 ^ (512 : ℤ) := by
    rw [Real.sqrt_le_left (zpow_pos (by norm_num) _).le, ← zpow_natCast, ← zpow_mul,
      show (512 : ℤ) * ((2 : ℕ) : ℤ) = ((1024 : ℕ) : ℤ) by norm_num, zpow_natCast]
    exact (le_abs_self _).trans h.le
  have hlt : (2 : ℝ) ^ (512 : ℤ) < 2 ^ (1024 : ℤ) := zpow_lt_zpow_right₀ (by norm_num) (by norm_num)
  rw [abs_of_nonneg (nearest_nonneg (Real.sqrt_nonneg _))]
  exact (nearest_le (onGrid_zpow (by norm_num)) hle).trans_lt (by exact_mod_cast hlt)

/-! ### Exact results -/

theorem HasValue.add_exact (hx : HasValue x a) (hy : HasValue y b) (hg : OnGrid (a + b))
    (h : |a + b| < 2 ^ 1024) : HasValue (x + y) (a + b) := by
  have := hx.add hy (by rwa [nearest_of_onGrid hg])
  rwa [nearest_of_onGrid hg] at this

theorem HasValue.sub_exact (hx : HasValue x a) (hy : HasValue y b) (hg : OnGrid (a - b))
    (h : |a - b| < 2 ^ 1024) : HasValue (x - y) (a - b) := by
  have := hx.sub hy (by rwa [nearest_of_onGrid hg])
  rwa [nearest_of_onGrid hg] at this

theorem HasValue.mul_exact (hx : HasValue x a) (hy : HasValue y b) (hg : OnGrid (a * b))
    (h : |a * b| < 2 ^ 1024) : HasValue (x * y) (a * b) := by
  have := hx.mul hy (by rwa [nearest_of_onGrid hg])
  rwa [nearest_of_onGrid hg] at this

theorem HasValue.div_exact (hx : HasValue x a) (hy : HasValue y b) (hb : b ≠ 0)
    (hg : OnGrid (a / b)) (h : |a / b| < 2 ^ 1024) : HasValue (x / y) (a / b) := by
  have := hx.div hy hb (by rwa [nearest_of_onGrid hg])
  rwa [nearest_of_onGrid hg] at this

end

/-! ### Natural numbers and constants -/

theorem toReal_of_value {x : Float} {s : Bool} {m : ℕ} {q : ℤ} (h : value x = .finite s m q) :
    toReal x = if s then -((m : ℝ) * 2 ^ q) else (m : ℝ) * 2 ^ q := by
  unfold toReal
  rw [h]

theorem hasValue_one_bits : HasValue (Float.ofBits 0x3FF0000000000000) 1 :=
  ⟨by decide, by
    rw [toReal_of_value (s := false) (m := 2 ^ 52) (q := -52) (by decide)]
    norm_num⟩

theorem hasValue_half : HasValue 0.5 (1 / 2) :=
  ⟨by decide, by
    rw [toReal_of_value (s := false) (m := 2 ^ 52) (q := -53) (by decide)]
    norm_num⟩

theorem natCast_lt_overflow {n : ℕ} (h : n ≤ 2 ^ 53) : |(n : ℝ)| < 2 ^ 1024 := by
  rw [Nat.abs_cast]
  exact (show (n : ℝ) ≤ 2 ^ 53 by exact_mod_cast h).trans_lt
    (pow_lt_pow_right₀ (by norm_num) (by norm_num))

/-- The double of a natural number of at most 53 binary digits. -/
theorem hasValue_ofUInt64 {n : ℕ} (h : n < 2 ^ 53) : HasValue n.toUInt64.toFloat n := by
  have hn : n.toUInt64.toNat = n := by
    rw [Nat.toUInt64, UInt64.toNat_ofNat', Nat.mod_eq_of_lt (h.trans (by norm_num))]
  have hg : nearest n = n := nearest_of_onGrid (onGrid_natCast h.le)
  obtain ⟨hc, hr⟩ := normalize_spec (n : ℤ) 0 .positive
  rw [zpow_zero, mul_one, Int.cast_natCast, hg] at hr
  have := hasValue_ofModel ⟨hc, hr⟩ (natCast_lt_overflow h.le)
  rw [show n.toUInt64.toFloat = .ofModel (.pack (ofNat .binary64 n.toUInt64.toNat)) from rfl, hn]
  exact this

/-- A natural number with more binary digits, read as the product of itself and one. -/
theorem ofScientific_spec {n : ℕ} (h : 2 ^ 53 ≤ n) :
    Canonical (ofScientific .binary64 n 0) ∧ real (ofScientific .binary64 n 0) = nearest n := by
  have hn : (0 : ℝ) < n := by exact_mod_cast (show 0 < n by omega)
  have hshift : (n : ℝ) / (2 : ℝ) ^ (-53 : ℤ) = ((n <<< 53 * 10 ^ 0 : ℕ) : ℝ) := by
    rw [Nat.shiftLeft_eq, zpow_neg]
    push_cast
    rw [div_inv_eq_mul]
    norm_num
  have hunit : (-53 : ℤ) ≤ unitExponent n := by
    refine le_unitExponent_of_le ?_
    have : (1 : ℝ) ≤ n := by exact_mod_cast (show 1 ≤ n by omega)
    norm_num
    linarith
  have := roundWithAccuracy_spec (.positive * .positive) .exact (m := n <<< 53 * 10 ^ 0)
    (e := -53) hn (by rw [hshift]; exact cut_exact _) hunit
  unfold ofScientific
  rw [dif_neg (by omega), if_neg (by norm_num), if_neg (by norm_num), if_pos le_rfl]
  exact this

/-- **A natural number as a double.** -/
theorem hasValue_natCast_nearest {n : ℕ} (h : |nearest n| < 2 ^ 1024) :
    HasValue n.toFloat (nearest n) := by
  change HasValue (Float.ofScientific n false 0) (nearest n)
  unfold Float.ofScientific
  by_cases h1 : n < 2 ^ 53
  · have hg : OnGrid n := onGrid_natCast h1.le
    rw [dif_pos ⟨h1, by norm_num⟩]
    rw [nearest_of_onGrid hg] at h ⊢
    have := (hasValue_ofUInt64 h1).mul_exact hasValue_one_bits (by rwa [mul_one]) (by rwa [mul_one])
    rwa [mul_one] at this
  · rw [dif_neg (fun hc => h1 hc.1)]
    exact hasValue_ofModel (ofScientific_spec (not_lt.1 h1)) h

/-- A natural number that is itself on the grid. -/
theorem hasValue_natCast {n : ℕ} (h : n ≤ 2 ^ 53) : HasValue n.toFloat n := by
  have hg : nearest n = n := nearest_of_onGrid (onGrid_natCast h)
  have := hasValue_natCast_nearest (n := n) (by rw [hg]; exact natCast_lt_overflow h)
  rwa [hg] at this

theorem hasValue_natCast_mul {x y : Float} {a b : ℕ} (hx : HasValue x a) (hy : HasValue y b)
    (h : a * b ≤ 2 ^ 53) : HasValue (x * y) ((a * b : ℕ) : ℝ) := by
  rw [Nat.cast_mul]
  refine hx.mul_exact hy ?_ ?_
  · exact_mod_cast onGrid_natCast h
  · exact_mod_cast natCast_lt_overflow h

theorem hasValue_zero : HasValue 0 0 := by
  have := hasValue_natCast (n := 0) (by norm_num)
  rwa [Nat.cast_zero] at this

theorem hasValue_one : HasValue 1 1 := by
  have := hasValue_natCast (n := 1) (by norm_num)
  rwa [Nat.cast_one] at this

theorem hasValue_two : HasValue 2 2 := by
  have := hasValue_natCast (n := 2) (by norm_num)
  rwa [Nat.cast_ofNat] at this

/-- **Doubling is exact.** -/
theorem HasValue.two_mul {x : Float} {a : ℝ} (hx : HasValue x a) (h : |2 * a| < 2 ^ 1024) :
    HasValue (2 * x) (2 * a) :=
  hasValue_two.mul_exact hx hx.onGrid.two_mul h

theorem HasValue.mul_two {x : Float} {a : ℝ} (hx : HasValue x a) (h : |2 * a| < 2 ^ 1024) :
    HasValue (x * 2) (2 * a) := by
  rw [mul_comm] at h ⊢
  exact hx.mul_exact hasValue_two (mul_comm 2 a ▸ hx.onGrid.two_mul) h

end Campaign.Binary64
