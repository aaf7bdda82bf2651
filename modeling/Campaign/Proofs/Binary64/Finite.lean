import Campaign.Proofs.Binary64.Whole

/-!
# What is not finite stays so

An infinity or a not-a-number never leads to a finite sum, product, quotient or root, but for a
finite number divided by an infinity. So a finite result says that its operands are finite, and then
it is the exact result rounded: there was no overflow.

## Main statements

* `isFinite_of_add`, `isFinite_of_mul`, `isFinite_of_div`, `isFinite_of_sqrt`: finite operands.
* `HasValue.add_of_isFinite`, `HasValue.mul_of_isFinite`: the numbers of finite results.
* `HasValue.div_of_one_le`: a quotient by a number of at least one.
* `HasValue.isFinite_halves`: half of one number and half of another.
* `sum_nonneg`: a finite sum of numbers that are not negative.
-/

namespace Campaign.Binary64

open Float.Model (UnpackedFloat)
open Float.Model.UnpackedFloat

/-! ### Finite operands -/

/-- Packing makes nothing finite. -/
theorem isFinite_of_pack {u : UnpackedFloat}
    (h : (Float.ofModel (.pack u)).isFinite = true) : u.isFinite = true := by
  change (unpack .binary64 (pack .binary64 u)).isFinite = true at h
  cases u with
  | infinity s =>
    rw [unpack_pack_infinity] at h
    exact h
  | notANumber => exact absurd h (by decide)
  | zero s => rfl
  | finite s m e hm => rfl

section

variable {x y : Float}

theorem isFinite_of_add (h : (x + y).isFinite = true) :
    x.isFinite = true ∧ y.isFinite = true := by
  replace h := isFinite_of_pack (u := add .binary64 x.toModel.unpack y.toModel.unpack) h
  change x.toModel.unpack.isFinite = true ∧ y.toModel.unpack.isFinite = true
  generalize x.toModel.unpack = u at *
  generalize y.toModel.unpack = v at *
  cases u <;> cases v <;> first
    | exact ⟨rfl, rfl⟩
    | (rename_i s t; cases s <;> cases t <;> exact absurd h (by decide))
    | exact absurd h Bool.false_ne_true

theorem isFinite_of_mul (h : (x * y).isFinite = true) :
    x.isFinite = true ∧ y.isFinite = true := by
  replace h := isFinite_of_pack (u := mul .binary64 x.toModel.unpack y.toModel.unpack) h
  change x.toModel.unpack.isFinite = true ∧ y.toModel.unpack.isFinite = true
  generalize x.toModel.unpack = u at *
  generalize y.toModel.unpack = v at *
  cases u <;> cases v <;> first
    | exact ⟨rfl, rfl⟩
    | exact absurd h Bool.false_ne_true

/-- Only the dividend has to be finite: a finite number divided by an infinity is zero. -/
theorem isFinite_of_div (h : (x / y).isFinite = true) : x.isFinite = true := by
  replace h := isFinite_of_pack (u := div .binary64 x.toModel.unpack y.toModel.unpack) h
  change x.toModel.unpack.isFinite = true
  generalize x.toModel.unpack = u at *
  generalize y.toModel.unpack = v at *
  cases u <;> cases v <;> first
    | rfl
    | exact absurd h Bool.false_ne_true

theorem isFinite_of_sqrt (h : x.sqrt.isFinite = true) : x.isFinite = true := by
  replace h := isFinite_of_pack (u := sqrt .binary64 x.toModel.unpack) h
  change x.toModel.unpack.isFinite = true
  generalize x.toModel.unpack = u at *
  cases u with
  | infinity s => cases s <;> exact absurd h Bool.false_ne_true
  | notANumber => exact absurd h Bool.false_ne_true
  | zero s => rfl
  | finite s m e hm => rfl

/-! ### The numbers of finite results -/

theorem hasValue_of_isFinite_pack {u : UnpackedFloat} {r : ℝ} (hu : Canonical u ∧ real u = r)
    (h : (Float.ofModel (.pack u)).isFinite = true) : HasValue (.ofModel (.pack u)) r := by
  refine hasValue_ofModel hu (lt_of_not_ge fun hge => ?_)
  obtain ⟨hc, rfl⟩ := hu
  obtain ⟨s, -, hs⟩ := unpack_pack_overflow hc hge
  change (unpack .binary64 (pack .binary64 u)).isFinite = true at h
  rw [hs] at h
  exact absurd h Bool.false_ne_true

variable {a b : ℝ}

theorem HasValue.add_of_isFinite (hx : HasValue x a) (hy : HasValue y b)
    (h : (x + y).isFinite = true) : HasValue (x + y) (nearest (a + b)) := by
  obtain ⟨hcx, rfl⟩ := hx.canonical
  obtain ⟨hcy, rfl⟩ := hy.canonical
  exact hasValue_of_isFinite_pack (add_spec hcx hcy) h

theorem HasValue.mul_of_isFinite (hx : HasValue x a) (hy : HasValue y b)
    (h : (x * y).isFinite = true) : HasValue (x * y) (nearest (a * b)) := by
  obtain ⟨hcx, rfl⟩ := hx.canonical
  obtain ⟨hcy, rfl⟩ := hy.canonical
  exact hasValue_of_isFinite_pack (mul_spec hcx hcy) h

/-- Division by a number of at least one does not overflow. -/
theorem HasValue.div_of_one_le (hx : HasValue x a) (hy : HasValue y b) (hb : 1 ≤ b) :
    HasValue (x / y) (nearest (a / b)) := by
  have hgrid : OnGrid |a| := by
    rcases abs_choice a with h | h <;> rw [h]
    · exact hx.onGrid
    · exact hx.onGrid.neg
  refine hx.div hy (by linarith) ((abs_nearest_le hgrid ?_).trans_lt hx.abs_lt)
  rw [abs_div, abs_of_nonneg (zero_le_one.trans hb)]
  exact div_le_self (abs_nonneg a) hb

end

/-! ### The greatest number -/

theorem onGrid_greatest : OnGrid greatest :=
  ⟨2 ^ 53 - 1, 971, by norm_num, by norm_num, by norm_num [greatest]⟩

theorem onGrid_half_greatest : OnGrid (greatest / 2) := by
  refine ⟨2 ^ 53 - 1, 970, by norm_num, by norm_num, ?_⟩
  rw [greatest, show (2 : ℝ) ^ 971 = 2 ^ 970 * 2 from pow_succ 2 970, ← mul_assoc,
    mul_div_cancel_right₀ _ two_ne_zero]
  norm_num

theorem greatest_lt : greatest < 2 ^ 1024 := by
  rw [greatest, show (1024 : ℕ) = 53 + 971 from rfl, pow_add]
  exact mul_lt_mul_of_pos_right (sub_one_lt _) (by positivity)

theorem greatest_nonneg : 0 ≤ greatest :=
  mul_nonneg (sub_nonneg.2 (one_le_pow₀ one_le_two)) (by positivity)

theorem HasValue.abs_le_greatest {x : Float} {r : ℝ} (hx : HasValue x r) : |r| ≤ greatest := by
  obtain ⟨hc, rfl⟩ := hx.canonical
  rcases hu : x.toModel.unpack with s | _ | s | ⟨s, m, e, hm⟩
  · rw [hu] at hc; exact hc.elim
  · rw [hu] at hc; exact hc.elim
  · rw [show real (.zero s) = 0 from rfl, abs_zero]
    exact greatest_nonneg
  · obtain ⟨⟨h1, -, -⟩, h2, -⟩ := unpack_finite hu
    have hm' : (m : ℝ) ≤ 2 ^ 53 - 1 := by
      have : ((m + 1 : ℕ) : ℝ) ≤ 2 ^ 53 := by exact_mod_cast h1
      push_cast at this
      linarith
    have he : (2 : ℝ) ^ e ≤ 2 ^ (971 : ℤ) := zpow_le_zpow_right₀ one_le_two h2
    rw [abs_real_finite]
    exact mul_le_mul hm' (by exact_mod_cast he) (by positivity) (by norm_num)

/-- Half of one number and half of another. -/
theorem HasValue.isFinite_halves {x y z w : Float} {a b : ℝ} (hx : HasValue x a)
    (hy : HasValue y b) (hz : HasValue z (1 / 2)) (hw : HasValue w (1 / 2)) :
    (x * z + y * w).isFinite = true := by
  have hhalf {c : ℝ} (hc : |c| ≤ greatest) : |c * (1 / 2)| ≤ greatest / 2 := by
    rw [abs_mul, abs_of_pos (by norm_num : (0 : ℝ) < 1 / 2)]
    linarith
  have hle {c : ℝ} (hc : |c| ≤ greatest) : |nearest (c * (1 / 2))| ≤ greatest / 2 :=
    abs_nearest_le onGrid_half_greatest (hhalf hc)
  have hlt {c : ℝ} (hc : |c| ≤ greatest) : |nearest (c * (1 / 2))| < 2 ^ 1024 :=
    (hle hc).trans_lt ((half_le_self greatest_nonneg).trans_lt greatest_lt)
  have hleft := hx.mul hz (hlt hx.abs_le_greatest)
  have hright := hy.mul hw (hlt hy.abs_le_greatest)
  refine (hleft.add hright ?_).isFinite
  refine (abs_nearest_le onGrid_greatest ((abs_add_le _ _).trans ?_)).trans_lt greatest_lt
  linarith [hle hx.abs_le_greatest, hle hy.abs_le_greatest]

/-- From `2^53` on the halves of the numbers of the grid are whole. -/
theorem OnGrid.half_of_large {r : ℝ} (hr : OnGrid r) (h : 2 ^ 53 ≤ r) :
    OnGrid (r / 2) ∧ ∃ k : ℕ, r / 2 = k := by
  obtain ⟨m, e, hm, -, rfl⟩ := hr
  have hpower : (0 : ℝ) < 2 ^ e := by positivity
  have hm' : (m : ℝ) ≤ 2 ^ 53 := by exact_mod_cast (le_abs_self m).trans hm
  have hm0 : 0 ≤ m := by
    by_contra hneg
    have hm1 : (m : ℝ) ≤ 0 := by exact_mod_cast (by omega : m ≤ 0)
    have : (m : ℝ) * 2 ^ e ≤ 0 := mul_nonpos_of_nonpos_of_nonneg hm1 hpower.le
    linarith [pow_pos (two_pos (α := ℝ)) 53]
  have he : 0 ≤ e := by
    by_contra hneg
    have hlt : (2 : ℝ) ^ e < 1 := zpow_lt_one_of_neg₀ one_lt_two (by omega)
    have : (m : ℝ) * 2 ^ e ≤ 2 ^ 53 * 2 ^ e := mul_le_mul_of_nonneg_right hm' hpower.le
    linarith [mul_lt_mul_of_pos_left hlt (pow_pos (two_pos (α := ℝ)) 53)]
  obtain ⟨n, rfl⟩ := Int.eq_ofNat_of_zero_le he
  obtain ⟨i, rfl⟩ := Int.eq_ofNat_of_zero_le hm0
  cases n with
  | zero =>
    obtain rfl : i = 2 ^ 53 := by
      have hle : 2 ^ 53 ≤ i := by
        rw [Nat.cast_zero, zpow_zero, mul_one] at h
        exact_mod_cast h
      have hge : i ≤ 2 ^ 53 := by exact_mod_cast hm'
      omega
    have hhalf : (((2 ^ 53 : ℕ) : ℤ) : ℝ) * 2 ^ ((0 : ℕ) : ℤ) / 2 = 2 ^ 52 := by norm_num
    rw [hhalf]
    exact ⟨onGrid_pow 52, 2 ^ 52, by norm_num⟩
  | succ n =>
    have hhalf : ((i : ℤ) : ℝ) * 2 ^ ((n + 1 : ℕ) : ℤ) / 2 = (i : ℤ) * 2 ^ (n : ℤ) := by
      push_cast
      rw [zpow_add_one₀ two_ne_zero]
      ring
    rw [hhalf]
    refine ⟨⟨i, n, hm, by omega, rfl⟩, i * 2 ^ n, ?_⟩
    push_cast
    rw [zpow_natCast]

/-! ### Sums -/

/-- **A finite sum** of numbers that are not negative is not negative. -/
theorem sum_nonneg {l : List Float} (hl : ∀ x ∈ l, x.isFinite = true → 0 ≤ toReal x)
    (h : (sum l).isFinite = true) : 0 ≤ toReal (sum l) := by
  induction l using List.reverseRecOn with
  | nil => rw [sum_nil, hasValue_negZero.toReal_eq]
  | append_singleton l x ih =>
    rw [sum_append_singleton] at h ⊢
    obtain ⟨hsum, hx⟩ := isFinite_of_add h
    have hsum0 := ih (fun y hy => hl y (List.mem_append_left _ hy)) hsum
    have hx0 := hl x (List.mem_append_right l (List.mem_singleton_self x)) hx
    rw [((hasValue_toReal hsum).add_of_isFinite (hasValue_toReal hx) h).toReal_eq]
    exact nearest_nonneg (add_nonneg hsum0 hx0)

end Campaign.Binary64
