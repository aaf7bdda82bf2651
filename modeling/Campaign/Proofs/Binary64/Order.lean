import Campaign.Proofs.Binary64.Arithmetic

/-!
# The order of doubles

Comparing finite doubles is comparing their numbers. A number other than zero is the number of one
double only, and zero that of two. The total order refines the order of the numbers.

## Main statements

* `HasValue.lt_iff`, `HasValue.le_iff`, `HasValue.beq_iff`: comparisons.
* `HasValue.eq`, `HasValue.eq_zero_or`: which doubles stand for the same number.
* `totalKey_lt`: the total order respects the order of the numbers.
-/

namespace Campaign.Binary64

open Float.Model (Format UnpackedFloat totalExponent)
open Float.Model.UnpackedFloat

/-! ### Magnitudes of canonical forms -/

theorem magnitude_lt_of_exponent {m n : ℕ} {e f : ℤ} (hm : m < 2 ^ 53) (hn : 2 ^ 52 ≤ n)
    (h : e < f) : (m : ℝ) * 2 ^ e < n * 2 ^ f := by
  have hm' : (m : ℝ) < 2 ^ (53 : ℤ) := by exact_mod_cast hm
  have hn' : (2 : ℝ) ^ (52 : ℤ) ≤ n := by exact_mod_cast hn
  calc (m : ℝ) * 2 ^ e < 2 ^ (53 : ℤ) * 2 ^ e := mul_lt_mul_of_pos_right hm' (zpow_pos (by norm_num) e)
    _ = 2 ^ (53 + e) := (zpow_add₀ (by norm_num) _ _).symm
    _ ≤ 2 ^ (52 + f) := zpow_le_zpow_right₀ (by norm_num) (by omega)
    _ = 2 ^ (52 : ℤ) * 2 ^ f := zpow_add₀ (by norm_num) _ _
    _ ≤ n * 2 ^ f := mul_le_mul_of_nonneg_right hn' (zpow_pos (by norm_num) f).le

/-- Canonical forms are ordered by exponent and then by mantissa. -/
theorem compare_magnitude {s t : Sign} {m n : ℕ} {e f : ℤ} {hm : 0 < m} {hn : 0 < n}
    (ha : Canonical (.finite s m e hm)) (hb : Canonical (.finite t n f hn)) :
    (compare e f).then (compare m n) = compare ((m : ℝ) * 2 ^ e) (n * 2 ^ f) := by
  obtain ⟨h1, h2, h3⟩ := ha
  obtain ⟨k1, k2, k3⟩ := hb
  rcases lt_trichotomy e f with h | rfl | h
  · have := magnitude_lt_of_exponent h1 (k3.resolve_right (by omega)) h
    rw [compare_lt_iff_lt.2 h, compare_lt_iff_lt.2 this]
    rfl
  · have hp : (0 : ℝ) < 2 ^ e := zpow_pos (by norm_num) e
    rw [compare_eq_iff_eq.2 rfl]
    change compare m n = _
    rcases lt_trichotomy m n with h | rfl | h
    · rw [compare_lt_iff_lt.2 h, compare_lt_iff_lt.2]
      exact mul_lt_mul_of_pos_right (by exact_mod_cast h) hp
    · rw [compare_eq_iff_eq.2 rfl, compare_eq_iff_eq.2 rfl]
    · rw [compare_gt_iff_gt.2 h, compare_gt_iff_gt.2]
      exact mul_lt_mul_of_pos_right (by exact_mod_cast h) hp
  · have := magnitude_lt_of_exponent k1 (h3.resolve_right (by omega)) h
    rw [compare_gt_iff_gt.2 h, compare_gt_iff_gt.2 this]
    rfl

theorem compare_neg (a b : ℝ) : compare (-a) (-b) = (compare a b).swap := by
  rcases lt_trichotomy a b with h | rfl | h
  · rw [compare_lt_iff_lt.2 h, compare_gt_iff_gt.2 (neg_lt_neg h)]; rfl
  · rw [compare_eq_iff_eq.2 rfl, compare_eq_iff_eq.2 rfl]; rfl
  · rw [compare_gt_iff_gt.2 h, compare_lt_iff_lt.2 (neg_lt_neg h)]; rfl

theorem real_negative_lt {m : ℕ} {e : ℤ} (hm : 0 < m) : real (.finite .negative m e hm) < 0 :=
  neg_lt_zero.2 (mul_pos (by exact_mod_cast hm) (zpow_pos (by norm_num) _))

theorem real_positive_gt {m : ℕ} {e : ℤ} (hm : 0 < m) : 0 < real (.finite .positive m e hm) :=
  mul_pos (by exact_mod_cast hm) (zpow_pos (by norm_num) _)

/-- **Comparing canonical forms is comparing their numbers.** -/
theorem compare_spec {a b : UnpackedFloat} (ha : Canonical a) (hb : Canonical b) :
    a.compare b = some (compare (real a) (real b)) := by
  have hlt : ∀ {r q : ℝ}, r < q → some Ordering.lt = some (compare r q) := fun h =>
    congrArg some (compare_lt_iff_lt.2 h).symm
  have hgt : ∀ {r q : ℝ}, q < r → some Ordering.gt = some (compare r q) := fun h =>
    congrArg some (compare_gt_iff_gt.2 h).symm
  cases a with
  | infinity s => exact ha.elim
  | notANumber => exact ha.elim
  | zero s =>
    cases b with
    | infinity t => exact hb.elim
    | notANumber => exact hb.elim
    | zero t => exact congrArg some (compare_eq_iff_eq.2 rfl).symm
    | finite t n f hn =>
      cases t with
      | negative => exact hgt (real_negative_lt hn)
      | positive => exact hlt (real_positive_gt hn)
  | finite s m e hm =>
    cases b with
    | infinity t => exact hb.elim
    | notANumber => exact hb.elim
    | zero t =>
      cases s with
      | negative => exact hlt (real_negative_lt hm)
      | positive => exact hgt (real_positive_gt hm)
    | finite t n f hn =>
      cases s <;> cases t
      · change some ((compare e f).then (compare m n)).swap = some (compare (-_) (-_))
        rw [compare_magnitude ha hb, compare_neg]
      · exact hlt ((real_negative_lt hm).trans (real_positive_gt hn))
      · exact hgt ((real_negative_lt hn).trans (real_positive_gt hm))
      · change some ((compare e f).then (compare m n)) = some (compare _ _)
        rw [compare_magnitude ha hb]
        rfl

/-! ### Comparisons -/

section

variable {x y : Float} {a b : ℝ}

theorem HasValue.compare (hx : HasValue x a) (hy : HasValue y b) :
    x.toModel.unpack.compare y.toModel.unpack = some (compare a b) := by
  obtain ⟨hcx, rfl⟩ := hx.canonical
  obtain ⟨hcy, rfl⟩ := hy.canonical
  exact compare_spec hcx hcy

theorem lt_eq_compare (x y : Float) :
    x < y ↔ x.toModel.unpack.compare y.toModel.unpack = some .lt := by
  change Float.lt x y = true ↔ _
  unfold Float.lt
  rw [decide_eq_true_iff]
  change (x.toModel.unpack.compare y.toModel.unpack == some .lt) = true ↔ _
  exact beq_iff_eq

theorem le_eq_compare (x y : Float) :
    x ≤ y ↔ (x.toModel.unpack.compare y.toModel.unpack).any (·.isLE) = true := by
  change Float.le x y = true ↔ _
  unfold Float.le
  rw [decide_eq_true_iff]
  rfl

/-- Only numbers are compared. -/
theorem isNaN_both_of_le {x y : Float} (h : x ≤ y) : x.isNaN = false ∧ y.isNaN = false := by
  rw [le_eq_compare] at h
  change x.toModel.unpack.isNaN = false ∧ y.toModel.unpack.isNaN = false
  generalize x.toModel.unpack = u at *
  generalize y.toModel.unpack = v at *
  cases u <;> cases v <;> first
    | exact ⟨rfl, rfl⟩
    | exact absurd h Bool.false_ne_true

theorem isNaN_of_le {x y : Float} (h : x ≤ y) : x.isNaN = false := (isNaN_both_of_le h).1

theorem isNaN_right_of_le {x y : Float} (h : x ≤ y) : y.isNaN = false := (isNaN_both_of_le h).2

theorem isLE_of_lt {x y : Float} (h : x < y) : x ≤ y := by
  rw [lt_eq_compare] at h
  rw [le_eq_compare, h]
  rfl

theorem HasValue.lt_iff (hx : HasValue x a) (hy : HasValue y b) : x < y ↔ a < b := by
  rw [lt_eq_compare, hx.compare hy, Option.some_inj, compare_lt_iff_lt]

theorem HasValue.le_iff (hx : HasValue x a) (hy : HasValue y b) : x ≤ y ↔ a ≤ b := by
  rw [le_eq_compare, hx.compare hy, Option.any_some, ← compare_le_iff_le, Ordering.isLE_iff_ne_gt]

theorem HasValue.beq_iff (hx : HasValue x a) (hy : HasValue y b) : (x == y) = true ↔ a = b := by
  have h : (x == y) = (x.toModel.unpack.compare y.toModel.unpack == some .eq) := rfl
  rw [h, hx.compare hy, beq_iff_eq, Option.some_inj, compare_eq_iff_eq]

theorem HasValue.max (hx : HasValue x a) (hy : HasValue y b) : HasValue (max x y) (max a b) := by
  change HasValue (if x ≤ y then y else x) (Max.max a b)
  split_ifs with h
  · rwa [max_eq_right ((hx.le_iff hy).1 h)]
  · rw [hx.le_iff hy, not_le] at h
    rwa [max_eq_left h.le]

theorem HasValue.min (hx : HasValue x a) (hy : HasValue y b) : HasValue (min x y) (min a b) := by
  change HasValue (if x ≤ y then x else y) (Min.min a b)
  split_ifs with h
  · rwa [min_eq_left ((hx.le_iff hy).1 h)]
  · rw [hx.le_iff hy, not_le] at h
    rwa [min_eq_right h.le]

end

/-! ### The bits of a number -/

/-- The bits of a finite form below the sign, as a number. -/
def index : UnpackedFloat → ℕ
  | .finite _ m e _ => 2 ^ 52 * (e + 1074).toNat + m
  | _ => 0

/-- The sign of a finite form. -/
def signOf : UnpackedFloat → Sign
  | .finite s _ _ _ => s
  | .zero s => s
  | _ => .positive

/-- **The index orders canonical forms as their magnitudes.** -/
theorem index_lt_iff {u v : UnpackedFloat} (hu : Canonical u) (hv : Canonical v) :
    index u < index v ↔ |real u| < |real v| := by
  cases u with
  | infinity s => exact hu.elim
  | notANumber => exact hu.elim
  | zero s =>
    cases v with
    | infinity t => exact hv.elim
    | notANumber => exact hv.elim
    | zero t => simp [index, real]
    | finite t n f hn =>
      have h1 : 0 < index (.finite t n f hn) := by simp only [index]; omega
      have h2 : 0 < |real (.finite t n f hn)| := by
        rw [abs_real_finite]
        exact real_positive_gt hn
      simp only [show index (.zero s) = 0 from rfl, show real (.zero s) = 0 from rfl, abs_zero, h1, h2]
  | finite s m e hm =>
    cases v with
    | infinity t => exact hv.elim
    | notANumber => exact hv.elim
    | zero t =>
      have h : 0 ≤ |real (.finite s m e hm)| := abs_nonneg _
      simp only [show index (.zero t) = 0 from rfl, show real (.zero t) = 0 from rfl, abs_zero,
        Nat.not_lt_zero, not_lt.2 h]
    | finite t n f hn =>
      rw [abs_real_finite, abs_real_finite, iff_comm, ← compare_lt_iff_lt, ← compare_magnitude hu hv]
      obtain ⟨h1, h2, h3⟩ := hu
      obtain ⟨k1, k2, k3⟩ := hv
      simp only [index]
      rcases lt_trichotomy e f with h | rfl | h
      · rw [compare_lt_iff_lt.2 h]
        exact ⟨fun _ => by omega, fun _ => rfl⟩
      · rw [compare_eq_iff_eq.2 rfl, Ordering.eq_then, compare_lt_iff_lt]
        omega
      · rw [compare_gt_iff_gt.2 h]
        exact ⟨fun hc => ((by decide : Ordering.gt ≠ .lt) hc).elim, fun _ => by omega⟩

theorem index_eq_iff {u v : UnpackedFloat} (hu : Canonical u) (hv : Canonical v) :
    index u = index v ↔ |real u| = |real v| := by
  have h1 := index_lt_iff hu hv
  have h2 := index_lt_iff hv hu
  constructor
  · intro h
    exact le_antisymm (not_lt.1 fun hc => by have := h2.2 hc; omega)
      (not_lt.1 fun hc => by have := h1.2 hc; omega)
  · intro h
    rw [h, iff_false_right (lt_irrefl _)] at h1
    rw [h, iff_false_right (lt_irrefl _)] at h2
    omega

/-- The sign and the index are the bits. -/
theorem toNat_toBits {x : Float} (h : x.isFinite = true) :
    x.toBits.toNat = 2 ^ 63 * (signOf x.toModel.unpack).toBitVec.toNat + index x.toModel.unpack ∧
      index x.toModel.unpack < 2 ^ 63 := by
  have hc := canonical_of_isFinite h
  rcases hu : x.toModel.unpack with s | _ | s | ⟨s, m, e, hm⟩
  · rw [hu] at hc; exact hc.elim
  · rw [hu] at hc; exact hc.elim
  · exact ⟨unpack_zero hu, by norm_num [index]⟩
  · obtain ⟨⟨h1, h2, -⟩, h3, h4⟩ := unpack_finite hu
    refine ⟨h4.trans (Nat.add_assoc _ _ _), ?_⟩
    simp only [index]
    omega

theorem signed_real_nonneg (u : UnpackedFloat) : 0 ≤ signed (signOf u) (real u) := by
  cases u with
  | infinity s => cases s <;> simp [signed, signOf, real]
  | notANumber => exact le_rfl
  | zero s => cases s <;> simp [signed, signOf, real]
  | finite s m e hm =>
    cases s with
    | positive => exact (real_positive_gt hm).le
    | negative => exact neg_nonneg.2 (real_negative_lt hm).le

theorem real_nonneg_of_positive {u : UnpackedFloat} (h : signOf u = .positive) : 0 ≤ real u := by
  have hsigned := signed_real_nonneg u
  rwa [h] at hsigned

theorem real_nonpos_of_negative {u : UnpackedFloat} (h : signOf u = .negative) : real u ≤ 0 := by
  have hsigned := signed_real_nonneg u
  rw [h] at hsigned
  exact neg_nonneg.1 hsigned

/-- **A number other than zero is the number of one double only.** -/
theorem HasValue.eq {x y : Float} {r : ℝ} (hx : HasValue x r) (hy : HasValue y r) (h0 : r ≠ 0) :
    x = y := by
  obtain ⟨hcx, hrx⟩ := hx.canonical
  obtain ⟨hcy, hry⟩ := hy.canonical
  have hidx := (index_eq_iff hcx hcy).2 (by rw [hrx, hry])
  have hsign : signOf x.toModel.unpack = signOf y.toModel.unpack := by
    rcases hsx : signOf x.toModel.unpack <;> rcases hsy : signOf y.toModel.unpack
    · rfl
    · have h1 := real_nonpos_of_negative hsx
      have h2 := real_nonneg_of_positive hsy
      exact absurd (le_antisymm (hrx ▸ h1) (hry ▸ h2)) h0
    · have h1 := real_nonneg_of_positive hsx
      have h2 := real_nonpos_of_negative hsy
      exact absurd (le_antisymm (hry ▸ h2) (hrx ▸ h1)) h0
    · rfl
  refine Float.toBits_inj.1 (UInt64.toNat.inj ?_)
  rw [(toNat_toBits hx.isFinite).1, (toNat_toBits hy.isFinite).1, hidx, hsign]

/-- Zero is the number of two doubles. -/
theorem HasValue.eq_zero_or {x : Float} (hx : HasValue x 0) : x = 0 ∨ x = -0.0 := by
  obtain ⟨hcx, hrx⟩ := hx.canonical
  have hidx : index x.toModel.unpack = 0 := by
    have h := index_eq_iff hcx (show Canonical (.zero .positive) from trivial)
    rw [show real (.zero .positive) = 0 from rfl, hrx] at h
    exact h.2 rfl
  have hbits := (toNat_toBits hx.isFinite).1
  rw [hidx] at hbits
  rcases hs : signOf x.toModel.unpack
  · right
    refine Float.toBits_inj.1 (UInt64.toNat.inj ?_)
    rw [hbits, hs]
    decide
  · left
    refine Float.toBits_inj.1 (UInt64.toNat.inj ?_)
    rw [hbits, hs]
    decide

/-! ### The total order -/

theorem totalKey_eq {x : Float} (h : x.isFinite = true) :
    totalKey x = match signOf x.toModel.unpack with
      | .positive => (index x.toModel.unpack : ℤ)
      | .negative => -1 - (index x.toModel.unpack : ℤ) := by
  obtain ⟨h1, h2⟩ := toNat_toBits h
  simp only [totalKey, h1]
  rcases signOf x.toModel.unpack
  · rw [if_neg (by simp only [Sign.toBitVec]; norm_num)]
    simp only [Sign.toBitVec]
    norm_num
    omega
  · rw [if_pos (by simp only [Sign.toBitVec]; norm_num; omega)]
    simp only [Sign.toBitVec]
    norm_num

/-- **The total order respects the order of the numbers.** -/
theorem totalKey_lt {x y : Float} {a b : ℝ} (hx : HasValue x a) (hy : HasValue y b) (h : a < b) :
    totalKey x < totalKey y := by
  obtain ⟨hcx, rfl⟩ := hx.canonical
  obtain ⟨hcy, rfl⟩ := hy.canonical
  have hlt := index_lt_iff hcx hcy
  have hgt := index_lt_iff hcy hcx
  rw [totalKey_eq hx.isFinite, totalKey_eq hy.isFinite]
  rcases hsx : signOf x.toModel.unpack <;> rcases hsy : signOf y.toModel.unpack <;> simp only
  · have h1 := real_nonpos_of_negative hsx
    have h2 := real_nonpos_of_negative hsy
    have := hgt.2 (by rw [abs_of_nonpos h1, abs_of_nonpos h2]; linarith)
    omega
  · omega
  · exact absurd h (not_lt.2 ((real_nonpos_of_negative hsy).trans (real_nonneg_of_positive hsx)))
  · have h1 := real_nonneg_of_positive hsx
    have h2 := real_nonneg_of_positive hsy
    have := hlt.2 (by rwa [abs_of_nonneg h1, abs_of_nonneg h2])
    omega

end Campaign.Binary64
