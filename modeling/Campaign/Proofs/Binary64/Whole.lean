import Campaign.Proofs.Binary64.Order

/-!
# Whole numbers as doubles

On the integers up to `2^53` the arithmetic of doubles is that of the integers, down to the sign of
zero: a difference of equal numbers is `0.0`.

* `IsSmall`: the integers that doubles hold without gaps.

## Main statements

* `ofInt_add`, `ofInt_sub`: sums and differences of small integers.
* `truncate_eq_min`: a double used as an index is rounded down.
* `clamp_eq`, `clamp_unit`: clamping to the unit interval.
-/

namespace Campaign.Binary64

open Float.Model (Format UnpackedFloat totalExponent)
open Float.Model.UnpackedFloat

/-! ### The sign of zero -/

/-- Two finite forms whose numbers cancel have the positive zero as their sum. -/
theorem add_finite_eq_zero {s t : Sign} {m n : ℕ} {e f : ℤ} {hm : 0 < m} {hn : 0 < n}
    (h : real (.finite s m e hm) + real (.finite t n f hn) = 0) :
    add .binary64 (.finite s m e hm) (.finite t n f hn) = .zero .positive := by
  have hp : (0 : ℝ) < 2 ^ min e f := zpow_pos (by norm_num) _
  have hsum : (s.apply ((decreaseExponent m e (min e f)).1 : ℤ) +
      t.apply ((decreaseExponent n f (min e f)).1 : ℤ) : ℤ) = 0 := by
    have h0 : ((s.apply ((decreaseExponent m e (min e f)).1 : ℤ) +
        t.apply ((decreaseExponent n f (min e f)).1 : ℤ) : ℤ) : ℝ) * 2 ^ min e f = 0 := by
      rw [Int.cast_add, add_mul, decreaseExponent_real s m (min_le_left e f),
        decreaseExponent_real t n (min_le_right e f)]
      exact h
    exact_mod_cast (mul_eq_zero.1 h0).resolve_right hp.ne'
  simp only [add, hsum]
  rfl

theorem HasValue.finite {x : Float} {r : ℝ} (hx : HasValue x r) (h0 : r ≠ 0) :
    ∃ s m e hm, x.toModel.unpack = .finite s m e hm := by
  obtain ⟨hc, rfl⟩ := hx.canonical
  rcases hu : x.toModel.unpack with s | _ | s | ⟨s, m, e, hm⟩
  · rw [hu] at hc; exact hc.elim
  · rw [hu] at hc; exact hc.elim
  · rw [hu] at h0; exact absurd rfl h0
  · exact ⟨s, m, e, hm, rfl⟩

/-- **Numbers that cancel have the sum `0.0`.** -/
theorem HasValue.add_eq_zero {x y : Float} {r : ℝ} (hx : HasValue x r) (hy : HasValue y (-r))
    (h0 : r ≠ 0) : x + y = 0 := by
  obtain ⟨s, m, e, hm, hu⟩ := hx.finite h0
  obtain ⟨t, n, f, hn, hv⟩ := hy.finite (neg_ne_zero.2 h0)
  have hsum : real x.toModel.unpack + real y.toModel.unpack = 0 := by
    rw [hx.canonical.2, hy.canonical.2, add_neg_cancel]
  rw [hu, hv] at hsum
  change Float.ofModel (.pack (UnpackedFloat.add .binary64 x.toModel.unpack y.toModel.unpack)) = 0
  rw [hu, hv, add_finite_eq_zero hsum]
  decide

/-- **Equal numbers have the difference `0.0`.** -/
theorem HasValue.sub_eq_zero {x y : Float} {r : ℝ} (hx : HasValue x r) (hy : HasValue y r)
    (h0 : r ≠ 0) : x - y = 0 := by
  obtain ⟨s, m, e, hm, hu⟩ := hx.finite h0
  obtain ⟨t, n, f, hn, hv⟩ := hy.finite h0
  have hsum : real x.toModel.unpack + real y.toModel.unpack.neg = 0 := by
    rw [real_neg, hx.canonical.2, hy.canonical.2, add_neg_cancel]
  rw [hu, hv] at hsum
  change Float.ofModel (.pack (UnpackedFloat.sub .binary64 x.toModel.unpack y.toModel.unpack)) = 0
  rw [sub_eq_add, hu, hv, show (UnpackedFloat.finite t n f hn).neg = .finite (-t) n f hn from rfl,
    add_finite_eq_zero hsum]
  decide

/-- **Zero over a positive number is `0.0`.** -/
theorem HasValue.zero_div {x : Float} {r : ℝ} (hx : HasValue x r) (h0 : 0 < r) : 0 / x = 0 := by
  obtain ⟨s, m, e, hm, hu⟩ := hx.finite h0.ne'
  have hpos : 0 < real x.toModel.unpack := by rwa [hx.canonical.2]
  change Float.ofModel (.pack (UnpackedFloat.div .binary64 (0 : Float).toModel.unpack
    x.toModel.unpack)) = 0
  rw [hu] at hpos ⊢
  cases s with
  | negative => exact absurd hpos (real_negative_lt hm).not_gt
  | positive => rfl

/-! ### Small integers -/

/-- The integers that are held without gaps. -/
def IsSmall (n : ℤ) : Prop := |n| ≤ 2 ^ 53

theorem isSmall_natCast {n : ℕ} : IsSmall n ↔ n ≤ 2 ^ 53 := by
  unfold IsSmall
  rw [Nat.abs_cast]
  norm_cast

theorem hasValue_ofInt {n : ℤ} (h : IsSmall n) : HasValue (.ofInt n) n := by
  cases n with
  | ofNat n =>
    have := hasValue_natCast (isSmall_natCast.1 h)
    exact_mod_cast this
  | negSucc n =>
    have hn : n + 1 ≤ 2 ^ 53 := by
      unfold IsSmall at h
      rw [Int.negSucc_eq, abs_neg] at h
      exact isSmall_natCast.1 (by unfold IsSmall; exact_mod_cast h)
    have := (hasValue_natCast hn).neg
    rw [Int.negSucc_eq]
    push_cast at this ⊢
    exact this

theorem eq_ofInt {x : Float} {n : ℤ} (hn : IsSmall n) (hx : HasValue x n) (h0 : n = 0 → x = 0) :
    x = .ofInt n := by
  obtain rfl | h := eq_or_ne n 0
  · exact h0 rfl
  · exact hx.eq (hasValue_ofInt hn) (by exact_mod_cast h)

theorem intCast_lt_overflow {n : ℤ} (h : IsSmall n) : |(n : ℝ)| < 2 ^ 1024 := by
  have : |(n : ℝ)| ≤ 2 ^ 53 := by exact_mod_cast h
  exact this.trans_lt (pow_lt_pow_right₀ (by norm_num) (by norm_num))

/-- **Sums of small integers.** -/
theorem ofInt_add {a b : ℤ} (ha : IsSmall a) (hb : IsSmall b) (hab : IsSmall (a + b)) :
    Float.ofInt a + Float.ofInt b = Float.ofInt (a + b) := by
  have hx := hasValue_ofInt ha
  have hy := hasValue_ofInt hb
  refine eq_ofInt hab ?_ fun h0 => ?_
  · have hcast : ((a + b : ℤ) : ℝ) = a + b := Int.cast_add a b
    rw [hcast]
    exact hx.add_exact hy (hcast ▸ onGrid_intCast hab) (hcast ▸ intCast_lt_overflow hab)
  · obtain rfl | h := eq_or_ne a 0
    · obtain rfl : b = 0 := by omega
      decide
    · rw [show b = -a by omega] at hy ⊢
      exact hx.add_eq_zero (by exact_mod_cast hy) (by exact_mod_cast h)

/-- **Differences of small integers.** -/
theorem ofInt_sub {a b : ℤ} (ha : IsSmall a) (hb : IsSmall b) (hab : IsSmall (a - b)) :
    Float.ofInt a - Float.ofInt b = Float.ofInt (a - b) := by
  have hx := hasValue_ofInt ha
  have hy := hasValue_ofInt hb
  refine eq_ofInt hab ?_ fun h0 => ?_
  · have hcast : ((a - b : ℤ) : ℝ) = a - b := Int.cast_sub a b
    rw [hcast]
    exact hx.sub_exact hy (hcast ▸ onGrid_intCast hab) (hcast ▸ intCast_lt_overflow hab)
  · obtain rfl | h := eq_or_ne a 0
    · obtain rfl : b = 0 := by omega
      decide
    · rw [show b = a by omega] at hy ⊢
      exact hx.sub_eq_zero hy (by exact_mod_cast h)

theorem ofInt_natCast (n : ℕ) : Float.ofInt n = n.toFloat := rfl

theorem toFloat_add {a b : ℕ} (h : a + b ≤ 2 ^ 53) : a.toFloat + b.toFloat = (a + b).toFloat := by
  rw [← ofInt_natCast, ← ofInt_natCast, ← ofInt_natCast, Nat.cast_add]
  refine ofInt_add (isSmall_natCast.2 (by omega)) (isSmall_natCast.2 (by omega)) ?_
  exact_mod_cast isSmall_natCast.2 h

theorem foldl_toFloat (l : List ℕ) {a : ℕ} (h : a + l.sum ≤ 2 ^ 53) :
    (l.map Nat.toFloat).foldl (· + ·) a.toFloat = (a + l.sum).toFloat := by
  induction l generalizing a with
  | nil => rfl
  | cons b l ih =>
    rw [List.sum_cons, ← Nat.add_assoc] at *
    rw [List.map_cons, List.foldl_cons, toFloat_add (by omega), ih h]

theorem hasValue_negZero : HasValue (-0.0) 0 := by
  have h := hasValue_zero.neg
  rw [neg_zero] at h
  exact h

theorem negZero_add {n : ℕ} (h : n ≤ 2 ^ 53) : -0.0 + n.toFloat = n.toFloat := by
  rw [← ofInt_natCast]
  refine eq_ofInt (isSmall_natCast.2 h) ?_ fun h0 => ?_
  · have := hasValue_negZero.add_exact (hasValue_natCast h)
      (by rw [zero_add]; exact onGrid_natCast h) (by rw [zero_add]; exact natCast_lt_overflow h)
    rwa [zero_add] at this
  · obtain rfl : n = 0 := by exact_mod_cast h0
    decide

/-- **Sums of small natural numbers.** The sum of no numbers is `-0.0`. -/
theorem sum_toFloat {l : List ℕ} (hne : l ≠ []) (h : l.sum ≤ 2 ^ 53) :
    sum (l.map Nat.toFloat) = l.sum.toFloat := by
  obtain ⟨a, l, rfl⟩ := List.exists_cons_of_ne_nil hne
  rw [List.sum_cons] at *
  rw [sum, List.map_cons, List.foldl_cons, negZero_add (by omega), foldl_toFloat l h]

/-- The sum of small natural numbers is exact, also that of no numbers. -/
theorem hasValue_sum_toFloat {l : List ℕ} (h : l.sum ≤ 2 ^ 53) :
    HasValue (sum (l.map Nat.toFloat)) l.sum := by
  obtain rfl | hne := eq_or_ne l []
  · rw [List.map_nil, sum_nil, List.sum_nil, Nat.cast_zero]
    exact hasValue_negZero
  · rw [sum_toFloat hne h]
    exact hasValue_natCast h

/-! ### Doubles as indexes -/

theorem roundToInt_eq {m : ℕ} (e : ℤ) (s : Sign) :
    roundToInt s m e = s.apply ⌊(m : ℝ) * 2 ^ e⌋ := by
  set k := (e - 0).toNat with hk
  obtain ⟨em, hshift, hcut⟩ := shiftToExponent_spec .exact (m := m <<< k) (e := e - k) (t := 0)
    (x := m * 2 ^ e) (by omega)
    (by rw [mul_zpow_div]; exact cut_exact _)
  rw [zpow_zero, div_one] at hcut
  have hfloor : ⌊(m : ℝ) * 2 ^ e⌋ = em.mantissa :=
    Int.floor_eq_iff.2 ⟨by exact_mod_cast hcut.le, by exact_mod_cast hcut.lt⟩
  simp only [roundToInt, decreaseExponent, ← hk, hshift, hfloor]

theorem toInt_eq {x : Float} {r : ℝ} (hx : HasValue x r) (h0 : 0 ≤ r) (low high : ℤ) :
    x.toModel.unpack.toInt low high = ⌊r⌋ := by
  obtain ⟨hc, rfl⟩ := hx.canonical
  rcases hu : x.toModel.unpack with s | _ | s | ⟨s, m, e, hm⟩
  · rw [hu] at hc; exact hc.elim
  · rw [hu] at hc; exact hc.elim
  · simp [toInt, real]
  · rw [hu] at h0
    cases s with
    | negative => exact absurd h0 (not_le.2 (real_negative_lt hm))
    | positive => exact roundToInt_eq e .positive

theorem toNat_ofNatClamp (n : ℕ) : (UInt64.ofNatClamp n).toNat = min n (2 ^ 64 - 1) := by
  have hsize : UInt64.size = 2 ^ 64 := rfl
  unfold UInt64.ofNatClamp
  split_ifs with h
  · rw [UInt64.toNat_ofNatLT]
    omega
  · rw [UInt64.toNat_ofNatLT]
    omega

/-- **A double that is used as an index is rounded down**, or the greatest index if it is beyond
that one. -/
theorem truncate_eq_min {x : Float} {r : ℝ} (hx : HasValue x r) (h0 : 0 ≤ r) :
    truncate x = min ⌊r⌋₊ (2 ^ 64 - 1) := by
  change (UInt64.ofNatClamp (x.toModel.unpack.toInt 0 (UInt64.size - 1)).toNat).toNat = _
  rw [toInt_eq hx h0, Int.floor_toNat, toNat_ofNatClamp]

theorem truncate_eq {x : Float} {r : ℝ} (hx : HasValue x r) (h0 : 0 ≤ r) (h1 : r < 2 ^ 64) :
    truncate x = ⌊r⌋₊ := by
  have hfloor : ⌊r⌋₊ < 2 ^ 64 := (Nat.floor_lt h0).2 (by exact_mod_cast h1)
  rw [truncate_eq_min hx h0, min_eq_left (by omega)]

/-! ### Doubling and clamping -/

theorem isNaN_pack {u : UnpackedFloat} (hc : Canonical u) :
    (UnpackedFloat.unpack .binary64 (UnpackedFloat.pack .binary64 u)).isNaN = false := by
  rcases lt_or_ge |real u| (2 ^ 1024) with h | h
  · rw [unpack_pack hc h]
    cases u <;> first | rfl | exact hc.elim
  · obtain ⟨s, -, hs⟩ := unpack_pack_overflow hc h
    rw [hs]
    rfl

theorem HasValue.isNaN {x : Float} {r : ℝ} (hx : HasValue x r) : x.isNaN = false := by
  have hfin := hx.isFinite
  change x.toModel.unpack.isFinite = true at hfin
  change x.toModel.unpack.isNaN = false
  rcases hu : x.toModel.unpack with s | _ | s | ⟨s, m, e, hm⟩
  · rfl
  · rw [hu] at hfin
    exact absurd hfin (by decide)
  · rfl
  · rfl

theorem unpack_of_not_isFinite {x : Float} (h : x.isNaN = false) (hfin : ¬ x.isFinite = true) :
    ∃ s, x.toModel.unpack = .infinity s := by
  change ¬ x.toModel.unpack.isFinite = true at hfin
  change x.toModel.unpack.isNaN = false at h
  rcases hu : x.toModel.unpack with s | _ | s | ⟨s, m, e, hm⟩
  · exact ⟨s, rfl⟩
  · rw [hu] at h
    exact absurd h (by decide)
  · exact absurd (by rw [hu]; rfl) hfin
  · exact absurd (by rw [hu]; rfl) hfin

/-- Doubling a number may overflow, but it stays a number. -/
theorem isNaN_mul_two {x : Float} (h : x.isNaN = false) : (x * 2).isNaN = false := by
  by_cases hfin : x.isFinite = true
  · obtain ⟨hx, -⟩ := (hasValue_toReal hfin).canonical
    obtain ⟨h2, -⟩ := hasValue_two.canonical
    exact isNaN_pack (mul_spec hx h2).1
  · obtain ⟨s, hs⟩ := unpack_of_not_isFinite h hfin
    change (UnpackedFloat.unpack .binary64 (UnpackedFloat.pack .binary64
      (UnpackedFloat.mul .binary64 x.toModel.unpack (2 : Float).toModel.unpack))).isNaN = false
    rw [hs]
    cases s <;> decide

/-- No infinity lies between finite doubles. -/
theorem isFinite_of_between {x y z : Float} (hx : x.isFinite = true) (hz : z.isFinite = true)
    (hxy : x ≤ y) (hyz : y ≤ z) : y.isFinite = true := by
  by_contra hfin
  obtain ⟨s, hs⟩ := unpack_of_not_isFinite (isNaN_of_le hyz) hfin
  have hcx := canonical_of_isFinite hx
  have hcz := canonical_of_isFinite hz
  rw [le_eq_compare, hs] at hxy hyz
  cases s with
  | negative =>
    generalize x.toModel.unpack = u at *
    cases u with
    | infinity t => exact hcx.elim
    | notANumber => exact hcx.elim
    | zero t => exact absurd hxy Bool.false_ne_true
    | finite t m e hm => exact absurd hxy Bool.false_ne_true
  | positive =>
    generalize z.toModel.unpack = v at *
    cases v with
    | infinity t => exact hcz.elim
    | notANumber => exact hcz.elim
    | zero t => exact absurd hyz Bool.false_ne_true
    | finite t m e hm => exact absurd hyz Bool.false_ne_true

theorem isFinite_of_unit {x : Float} (h0 : 0 ≤ x) (h1 : x ≤ 1) : x.isFinite = true :=
  isFinite_of_between hasValue_zero.isFinite hasValue_one.isFinite h0 h1

theorem clamp_eq {x : Float} {r : ℝ} (hx : HasValue x r) (h0 : 0 ≤ r) (h1 : r ≤ 1) :
    clamp 0 1 x = x := by
  unfold clamp
  rw [if_neg (by rw [hx.lt_iff hasValue_zero]; exact not_lt.2 h0),
    if_neg (by rw [hasValue_one.lt_iff hx]; exact not_lt.2 h1)]

/-- A number beyond the upper bound is clamped to it. -/
theorem clamp_eq_one {x : Float} {r : ℝ} (hx : HasValue x r) (h1 : 1 ≤ r) : clamp 0 1 x = 1 := by
  rcases h1.eq_or_lt with rfl | h
  · rw [clamp_eq hx zero_le_one le_rfl]
    exact hx.eq hasValue_one one_ne_zero
  · unfold clamp
    rw [if_neg (by rw [hx.lt_iff hasValue_zero]; exact not_lt.2 (zero_le_one.trans h1)),
      if_pos ((hasValue_one.lt_iff hx).2 h)]

theorem clamp_eq_min {x : Float} {r : ℝ} (hx : HasValue x r) (h0 : 0 ≤ r) :
    clamp 0 1 x = min 1 x := by
  change _ = if 1 ≤ x then 1 else x
  split_ifs with h
  · exact clamp_eq_one hx ((hasValue_one.le_iff hx).1 h)
  · rw [hasValue_one.le_iff hx, not_le] at h
    exact clamp_eq hx h0 h.le

/-- **Whatever is a number, finite or not, is clamped into the interval.** -/
theorem clamp_unit {x : Float} (h : x.isNaN = false) :
    ∃ r, HasValue (clamp 0 1 x) r ∧ 0 ≤ r ∧ r ≤ 1 := by
  unfold clamp
  split_ifs with h0 h1
  · exact ⟨0, hasValue_zero, le_rfl, zero_le_one⟩
  · exact ⟨1, hasValue_one, zero_le_one, le_rfl⟩
  · have hfin : x.isFinite = true := by
      by_contra hfin
      obtain ⟨s, hs⟩ := unpack_of_not_isFinite h hfin
      -- an infinity is below zero or above one
      rw [lt_eq_compare, hs] at h0 h1
      cases s
      · exact absurd (by decide) h0
      · exact absurd (by decide) h1
    have hx := hasValue_toReal hfin
    refine ⟨_, hx, ?_, ?_⟩
    · rwa [hx.lt_iff hasValue_zero, not_lt] at h0
    · rwa [hasValue_one.lt_iff hx, not_lt] at h1

end Campaign.Binary64
