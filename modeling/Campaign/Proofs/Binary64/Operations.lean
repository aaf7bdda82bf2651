import Campaign.Proofs.Binary64.Cut

/-!
# The operations on canonical forms

Sum, difference, product, quotient and square root of canonical forms are canonical forms, and each
of them has the number that is nearest to the exact result.

## Main statements

* `add_spec`, `sub_spec`, `mul_spec`, `div_spec`, `sqrt_spec`.
-/

namespace Campaign.Binary64

open Float.Model (Format UnpackedFloat totalExponent)
open Float.Model.UnpackedFloat

/-! ### Signs -/

theorem signed_neg (s : Sign) (r : ℝ) : signed (-s) r = -signed s r := by
  cases s
  · exact (neg_neg r).symm
  · rfl

theorem signed_mul (s t : Sign) (a b : ℝ) : signed (s * t) (a * b) = signed s a * signed t b := by
  cases s <;> cases t
  · exact (neg_mul_neg a b).symm
  · exact (neg_mul a b).symm
  · exact (mul_neg a b).symm
  · rfl

theorem signed_div (s t : Sign) (a b : ℝ) : signed (s / t) (a / b) = signed s a / signed t b := by
  cases s <;> cases t
  · exact (neg_div_neg_eq a b).symm
  · exact (neg_div b a).symm
  · exact (div_neg a).symm
  · rfl

theorem nearest_signed (s : Sign) (r : ℝ) : nearest (signed s r) = signed s (nearest r) := by
  cases s
  · exact nearest_neg r
  · rfl

theorem cast_apply (s : Sign) (n : ℤ) : ((s.apply n : ℤ) : ℝ) = signed s n := by
  cases s
  · exact Int.cast_neg n
  · rfl

theorem signed_mul_right (s : Sign) (a b : ℝ) : signed s (a * b) = signed s a * b := by
  cases s
  · exact (neg_mul a b).symm
  · rfl

/-! ### Negation -/

theorem canonical_neg {u : UnpackedFloat} (h : Canonical u) : Canonical u.neg := by
  cases u with
  | infinity s => exact h
  | notANumber => exact h
  | zero s => exact h
  | finite s m e hm => exact h

theorem real_neg (u : UnpackedFloat) : real u.neg = -real u := by
  cases u with
  | infinity s => exact neg_zero.symm
  | notANumber => exact neg_zero.symm
  | zero s => exact neg_zero.symm
  | finite s m e hm => exact signed_neg s _

theorem onGrid_real {u : UnpackedFloat} (h : Canonical u) : OnGrid (real u) := by
  cases u with
  | infinity s => exact h.elim
  | notANumber => exact h.elim
  | zero s => exact ⟨0, 0, by norm_num, by norm_num, by simp [real]⟩
  | finite s m e hm =>
    obtain ⟨h1, h2, -⟩ := h
    have hg : OnGrid (m * 2 ^ e) :=
      ⟨m, e, by rw [Nat.abs_cast]; exact_mod_cast h1.le, h2, by push_cast; rfl⟩
    cases s
    · exact hg.neg
    · exact hg

theorem nearest_real {u : UnpackedFloat} (h : Canonical u) : nearest (real u) = real u :=
  nearest_of_onGrid (onGrid_real h)

/-! ### Sums -/

/-- Rounding an exact number that is given with its sign. -/
theorem normalize_spec (k e : ℤ) (z : Sign) :
    Canonical (UnpackedFloat.normalize .binary64 k e z) ∧
      real (UnpackedFloat.normalize .binary64 k e z) = nearest (k * 2 ^ e) := by
  unfold UnpackedFloat.normalize
  split
  · rename_i h
    have hk : k < 0 := Int.compare_eq_lt.1 h
    have hcast : (((-k).toNat : ℕ) : ℝ) = -k := by
      have : ((-k).toNat : ℤ) = -k := by omega
      exact_mod_cast this
    obtain ⟨h1, h2⟩ := round_spec .negative (m := (-k).toNat) (by omega) e
    refine ⟨h1, h2.trans ?_⟩
    rw [← nearest_signed, hcast]
    congr 1
    simp only [signed]
    ring
  · rename_i h
    rw [Int.compare_eq_eq.1 h]
    exact ⟨trivial, by simp [real]⟩
  · rename_i h
    have hk : 0 < k := Int.compare_eq_gt.1 h
    have hcast : ((k.toNat : ℕ) : ℝ) = k := by
      have : (k.toNat : ℤ) = k := by omega
      exact_mod_cast this
    obtain ⟨h1, h2⟩ := round_spec .positive (m := k.toNat) (by omega) e
    refine ⟨h1, h2.trans ?_⟩
    rw [← nearest_signed, hcast]
    rfl

/-- A number written with a smaller exponent. -/
theorem decreaseExponent_real (s : Sign) (m : ℕ) {e t : ℤ} (h : t ≤ e) :
    ((s.apply ((decreaseExponent m e t).1 : ℤ) : ℤ) : ℝ) * 2 ^ t = signed s (m * 2 ^ e) := by
  rw [cast_apply, ← signed_mul_right]
  congr 1
  simp only [decreaseExponent, Nat.shiftLeft_eq]
  rw [zpow_eq_mul_zpow h]
  push_cast
  ring

/-- **The sum of canonical forms is nearest to the exact sum.** -/
theorem add_spec {a b : UnpackedFloat} (ha : Canonical a) (hb : Canonical b) :
    Canonical (add .binary64 a b) ∧ real (add .binary64 a b) = nearest (real a + real b) := by
  cases a with
  | infinity s => exact ha.elim
  | notANumber => exact ha.elim
  | zero s =>
    cases b with
    | infinity t => exact hb.elim
    | notANumber => exact hb.elim
    | zero t =>
      simp only [add]
      split_ifs <;> exact ⟨trivial, by simp [real]⟩
    | finite t n f hn =>
      refine ⟨hb, ?_⟩
      rw [show real (.zero s) = 0 from rfl, zero_add, nearest_real hb]
      rfl
  | finite s m e hm =>
    cases b with
    | infinity t => exact hb.elim
    | notANumber => exact hb.elim
    | zero t =>
      refine ⟨ha, ?_⟩
      rw [show real (.zero t) = 0 from rfl, add_zero, nearest_real ha]
      rfl
    | finite t n f hn =>
      simp only [add]
      obtain ⟨h1, h2⟩ := normalize_spec (s.apply ((decreaseExponent m e (min e f)).1 : ℤ) +
        t.apply ((decreaseExponent n f (min e f)).1 : ℤ)) (min e f) .positive
      refine ⟨h1, h2.trans ?_⟩
      rw [Int.cast_add, add_mul, decreaseExponent_real s m (min_le_left e f),
        decreaseExponent_real t n (min_le_right e f)]
      rfl

theorem sub_eq_add (a b : UnpackedFloat) : sub .binary64 a b = add .binary64 a b.neg := by
  have happly : ∀ (s : Sign) (k : ℤ), (-s).apply k = -s.apply k := by
    intro s k
    cases s
    · exact (neg_neg k).symm
    · rfl
  cases a <;> cases b <;>
    simp only [sub, add, neg, happly, Int.sub_eq_add_neg]

/-- **The difference of canonical forms is nearest to the exact difference.** -/
theorem sub_spec {a b : UnpackedFloat} (ha : Canonical a) (hb : Canonical b) :
    Canonical (sub .binary64 a b) ∧ real (sub .binary64 a b) = nearest (real a - real b) := by
  rw [sub_eq_add, sub_eq_add_neg, ← real_neg]
  exact add_spec ha (canonical_neg hb)

/-! ### Products -/

theorem le_unitExponent_of_le {x : ℝ} {k : ℤ} (h : 2 ^ (k + 52) ≤ x) : k ≤ unitExponent x := by
  have hx : 0 < x := (zpow_pos (by norm_num) _).trans_le h
  have := (Int.zpow_le_iff_le_log (b := 2) (by norm_num) hx).1 (by exact_mod_cast h)
  unfold unitExponent
  rw [abs_of_pos hx]
  omega

theorem mul_exponent_le {m n : ℕ} {e f : ℤ} (hm : 0 < m) (hn : 0 < n)
    (h1 : 2 ^ 52 ≤ m ∨ e = -1074) (h2 : 2 ^ 52 ≤ n ∨ f = -1074) :
    e + f ≤ unitExponent (m * 2 ^ e * (n * 2 ^ f)) := by
  have hp : (0 : ℝ) < 2 ^ (e + f) := zpow_pos (by norm_num) _
  have key : 2 ^ 52 ≤ m * n → e + f ≤ unitExponent (m * 2 ^ e * (n * 2 ^ f)) := by
    intro h
    refine le_unitExponent_of_le ?_
    have h' : (2 : ℝ) ^ (52 : ℤ) ≤ m * n := by exact_mod_cast h
    calc (2 : ℝ) ^ (e + f + 52) = 2 ^ (52 : ℤ) * 2 ^ (e + f) := by
          rw [add_comm, zpow_add₀ (by norm_num)]
      _ ≤ m * n * 2 ^ (e + f) := mul_le_mul_of_nonneg_right h' hp.le
      _ = m * 2 ^ e * (n * 2 ^ f) := by rw [zpow_add₀ (by norm_num)]; ring
  rcases h1 with h1 | h1
  · exact key (h1.trans (Nat.le_mul_of_pos_right m hn))
  rcases h2 with h2 | h2
  · exact key (h2.trans (Nat.le_mul_of_pos_left n hm))
  · have := le_unitExponent (m * 2 ^ e * (n * 2 ^ f))
    omega

/-- **The product of canonical forms is nearest to the exact product.** -/
theorem mul_spec {a b : UnpackedFloat} (ha : Canonical a) (hb : Canonical b) :
    Canonical (mul .binary64 a b) ∧ real (mul .binary64 a b) = nearest (real a * real b) := by
  cases a with
  | infinity s => exact ha.elim
  | notANumber => exact ha.elim
  | zero s =>
    cases b with
    | infinity t => exact hb.elim
    | notANumber => exact hb.elim
    | zero t => exact ⟨trivial, by simp [real, mul]⟩
    | finite t n f hn => exact ⟨trivial, by simp [real, mul]⟩
  | finite s m e hm =>
    cases b with
    | infinity t => exact hb.elim
    | notANumber => exact hb.elim
    | zero t => exact ⟨trivial, by simp [real, mul]⟩
    | finite t n f hn =>
      have hm0 : (0 : ℝ) < m := by exact_mod_cast hm
      have hn0 : (0 : ℝ) < n := by exact_mod_cast hn
      have hp : ∀ k : ℤ, (0 : ℝ) < 2 ^ k := fun k => zpow_pos (by norm_num) k
      have hcut : (m : ℝ) * 2 ^ e * (n * 2 ^ f) / 2 ^ (e + f) = ((m * n : ℕ) : ℝ) := by
        rw [div_eq_iff (hp _).ne', zpow_add₀ (by norm_num)]
        push_cast
        ring
      obtain ⟨h1, h2⟩ := roundWithAccuracy_spec (s * t) .exact (m := m * n) (e := e + f)
        (mul_pos (mul_pos hm0 (hp e)) (mul_pos hn0 (hp f)))
        (by rw [hcut]; exact cut_exact _)
        (mul_exponent_le hm hn ha.2.2 hb.2.2)
      refine ⟨h1, h2.trans ?_⟩
      rw [← nearest_signed, signed_mul]
      rfl

/-! ### Quotients -/

/-- A quotient of natural numbers is cut to its integer part. -/
theorem cut_div (a : ℕ) {b : ℕ} (hb : 0 < b) :
    Cut (ExtendedMantissa.ofMantissaAndAccuracy (a / b) (accuracyOfFraction (a % b) b))
      ((a : ℝ) / b) := by
  have hb0 : (0 : ℝ) < b := by exact_mod_cast hb
  have hlt : ((a % b : ℕ) : ℝ) < b := by exact_mod_cast Nat.mod_lt a hb
  have hdiv : (a : ℝ) = ((a / b : ℕ) : ℝ) * b + ((a % b : ℕ) : ℝ) := by
    exact_mod_cast (Nat.div_add_mod' a b).symm
  have hquot : (a : ℝ) / b = ((a / b : ℕ) : ℝ) + ((a % b : ℕ) : ℝ) / b := by
    rw [hdiv, add_div, mul_div_cancel_right₀ _ hb0.ne']
  have hone : ((a % b : ℕ) : ℝ) / b < 1 := (div_lt_one hb0).2 hlt
  rw [hquot]
  unfold accuracyOfFraction
  split_ifs with h0
  · simp [Cut, ExtendedMantissa.ofMantissaAndAccuracy, h0]
  · have hpos : (0 : ℝ) < ((a % b : ℕ) : ℝ) / b :=
      div_pos (by exact_mod_cast Nat.pos_of_ne_zero h0) hb0
    rcases hc : compare (2 * (a % b)) b with _ | _ | _
    · have h2 : (2 : ℝ) * ((a % b : ℕ) : ℝ) < b := by exact_mod_cast Nat.compare_eq_lt.1 hc
      have : ((a % b : ℕ) : ℝ) / b < 1 / 2 := by
        rw [div_lt_div_iff₀ hb0 (by norm_num)]; linarith
      exact ⟨lt_add_of_pos_right _ hpos, (add_lt_add_iff_left _).2 this⟩
    · have h2 : (2 : ℝ) * ((a % b : ℕ) : ℝ) = b := by exact_mod_cast Nat.compare_eq_eq.1 hc
      have : ((a % b : ℕ) : ℝ) / b = 1 / 2 := by
        rw [div_eq_div_iff hb0.ne' (by norm_num)]; linarith
      exact congrArg _ this
    · have h2 : (b : ℝ) < 2 * ((a % b : ℕ) : ℝ) := by exact_mod_cast Nat.compare_eq_gt.1 hc
      have : 1 / 2 < ((a % b : ℕ) : ℝ) / b := by
        rw [div_lt_div_iff₀ (by norm_num) hb0]; linarith
      exact ⟨(add_lt_add_iff_left _).2 this, (add_lt_add_iff_left _).2 hone⟩

theorem lt_zpow_totalExponent {m : ℕ} (hm : 0 < m) (e : ℤ) :
    (2 : ℝ) ^ (totalExponent m e - 1) ≤ m * 2 ^ e ∧ (m : ℝ) * 2 ^ e < 2 ^ totalExponent m e := by
  have hp : (0 : ℝ) < 2 ^ e := zpow_pos (by norm_num) _
  have h1 : ((2 ^ m.log2 : ℕ) : ℝ) ≤ m := by exact_mod_cast Nat.log2_self_le hm.ne'
  have h2 : (m : ℝ) < ((2 ^ (m.log2 + 1) : ℕ) : ℝ) := by exact_mod_cast Nat.lt_log2_self (n := m)
  push_cast at h1 h2
  constructor
  · rw [show totalExponent m e - 1 = (m.log2 : ℤ) + e by simp only [totalExponent]; ring,
      zpow_add₀ (by norm_num), zpow_natCast]
    exact mul_le_mul_of_nonneg_right h1 hp.le
  · rw [totalExponent, zpow_add₀ (by norm_num)]
    exact mul_lt_mul_of_pos_right (by exact_mod_cast h2) hp

theorem targetExponent_int (k : ℤ) : Format.binary64.targetExponent k = max (k - 53) (-1074) := by
  simp only [Format.targetExponent, Format.mantissaBits, Format.minExponent]
  norm_num

/-- The quotient is computed on a grid that is fine enough. -/
theorem div_exponent_le {m n : ℕ} (hm : 0 < m) (hn : 0 < n) (e f : ℤ) :
    Format.binary64.targetExponent (totalExponent m e - totalExponent n f) ≤
      unitExponent (m * 2 ^ e / (n * 2 ^ f)) := by
  rw [targetExponent_int]
  refine max_le (le_unitExponent_of_le ?_) (le_unitExponent _)
  have hn0 : (0 : ℝ) < n * 2 ^ f := mul_pos (by exact_mod_cast hn) (zpow_pos (by norm_num) _)
  rw [le_div_iff₀ hn0]
  calc (2 : ℝ) ^ (totalExponent m e - totalExponent n f - 53 + 52) * (n * 2 ^ f)
      ≤ 2 ^ (totalExponent m e - totalExponent n f - 53 + 52) * 2 ^ totalExponent n f :=
        mul_le_mul_of_nonneg_left (lt_zpow_totalExponent hn f).2.le (zpow_pos (by norm_num) _).le
    _ = 2 ^ (totalExponent m e - 1) := by rw [← zpow_add₀ (by norm_num)]; congr 1; ring
    _ ≤ m * 2 ^ e := (lt_zpow_totalExponent hm e).1

theorem divCore_cut {m n : ℕ} (hn : 0 < n) (e f : ℤ) :
    let core := divCore .binary64 m e n f
    Cut (ExtendedMantissa.ofMantissaAndAccuracy core.1 core.2.2)
      (m * 2 ^ e / (n * 2 ^ f) / 2 ^ core.2.1) := by
  have hp : ∀ k : ℤ, (0 : ℝ) < 2 ^ k := fun k => zpow_pos (by norm_num) k
  have hn0 : (0 : ℝ) < n := by exact_mod_cast hn
  set t := min (e - f) (Format.binary64.targetExponent (totalExponent m e - totalExponent n f)) with ht
  have hle : t ≤ e - f := min_le_left _ _
  have hval : (m : ℝ) * 2 ^ e / (n * 2 ^ f) / 2 ^ t = ((m <<< (e - f - t).toNat : ℕ) : ℝ) / n := by
    have hz := zpow_eq_mul_zpow hle
    rw [zpow_sub₀ (by norm_num), div_eq_iff (hp f).ne'] at hz
    rw [Nat.shiftLeft_eq, hz]
    push_cast
    field_simp
  have := cut_div (m <<< (e - f - t).toNat) hn
  rw [← hval] at this
  exact this

/-- **The quotient of canonical forms is nearest to the exact quotient.** -/
theorem div_spec {a b : UnpackedFloat} (ha : Canonical a) (hb : Canonical b) (h0 : real b ≠ 0) :
    Canonical (div .binary64 a b) ∧ real (div .binary64 a b) = nearest (real a / real b) := by
  cases b with
  | infinity t => exact hb.elim
  | notANumber => exact hb.elim
  | zero t => exact absurd rfl h0
  | finite t n f hn =>
    cases a with
    | infinity s => exact ha.elim
    | notANumber => exact ha.elim
    | zero s => exact ⟨trivial, by simp [real, div]⟩
    | finite s m e hm =>
      have hpos : ∀ {m : ℕ} {e : ℤ}, 0 < m → (0 : ℝ) < m * 2 ^ e := fun h =>
        mul_pos (by exact_mod_cast h) (zpow_pos (by norm_num) _)
      obtain ⟨h1, h2⟩ := roundWithAccuracy_spec (s / t) _ (div_pos (hpos hm) (hpos hn))
        (divCore_cut hn e f) ((min_le_right _ _).trans (div_exponent_le hm hn e f))
      refine ⟨h1, h2.trans ?_⟩
      rw [← nearest_signed, signed_div]
      rfl

/-! ### Square roots -/

/-- A square root is cut to its integer part; it is never the midpoint of two integers. -/
theorem cut_sqrt (a : ℕ) :
    Cut (ExtendedMantissa.ofMantissaAndAccuracy (Nat.sqrt a)
      (if a - Nat.sqrt a * Nat.sqrt a = 0 then .exact
        else .inexact (if a - Nat.sqrt a * Nat.sqrt a ≤ Nat.sqrt a then .lt else .gt)))
      (Real.sqrt a) := by
  have h1 := Nat.sqrt_le a
  have h2 := Nat.lt_succ_sqrt a
  rw [Nat.succ_mul_succ] at h2
  generalize Nat.sqrt a = r at h1 h2
  have hr : (0 : ℝ) ≤ r := Nat.cast_nonneg r
  split_ifs with h0 hle
  · have : (a : ℝ) = r * r := by exact_mod_cast (show a = r * r by omega)
    exact (by rw [this, Real.sqrt_mul_self hr] : Real.sqrt a = r)
  · have e1 : (r : ℝ) * r < a := by exact_mod_cast (show r * r < a by omega)
    have e2 : (a : ℝ) ≤ r * r + r := by exact_mod_cast (show a ≤ r * r + r by omega)
    refine ⟨(Real.lt_sqrt hr).2 (by rw [sq]; exact e1), (Real.sqrt_lt' (by positivity)).2 ?_⟩
    change (a : ℝ) < ((r : ℝ) + 1 / 2) ^ 2
    linarith [show ((r : ℝ) + 1 / 2) ^ 2 = r * r + r + 1 / 4 by ring]
  · have e1 : (r : ℝ) * r + r + 1 ≤ a := by exact_mod_cast (show r * r + r + 1 ≤ a by omega)
    have e2 : (a : ℝ) < r * r + r + r + 1 := by exact_mod_cast (show a < r * r + r + r + 1 by omega)
    refine ⟨(Real.lt_sqrt (by positivity)).2 ?_, (Real.sqrt_lt' (by positivity)).2 ?_⟩
    · change ((r : ℝ) + 1 / 2) ^ 2 < a
      linarith [show ((r : ℝ) + 1 / 2) ^ 2 = r * r + r + 1 / 4 by ring]
    · change (a : ℝ) < ((r : ℝ) + 1) ^ 2
      linarith [show ((r : ℝ) + 1) ^ 2 = r * r + r + r + 1 by ring]

/-- The square root is computed on a grid that is fine enough. -/
theorem sqrt_exponent_le {m : ℕ} (hm : 0 < m) (e : ℤ) :
    Format.binary64.targetExponent ((totalExponent m e + 1).ediv 2) ≤
      unitExponent (Real.sqrt (m * 2 ^ e)) := by
  rw [targetExponent_int]
  refine max_le (le_unitExponent_of_le ?_) (le_unitExponent _)
  have hk : 2 * (totalExponent m e + 1).ediv 2 ≤ totalExponent m e + 1 :=
    Int.mul_ediv_self_le (by norm_num)
  refine Real.le_sqrt_of_sq_le (le_trans ?_ (lt_zpow_totalExponent hm e).1)
  rw [← zpow_natCast, ← zpow_mul]
  exact zpow_le_zpow_right₀ (by norm_num) (by push_cast; omega)

theorem sqrtCore_cut (m : ℕ) (e : ℤ) :
    let core := sqrtCore .binary64 m e
    Cut (ExtendedMantissa.ofMantissaAndAccuracy core.1 core.2.2)
      (Real.sqrt (m * 2 ^ e) / 2 ^ core.2.1) := by
  set t := min (e.ediv 2) (Format.binary64.targetExponent ((totalExponent m e + 1).ediv 2)) with ht
  have hle : t ≤ e.ediv 2 := min_le_left _ _
  have hle' : 2 * t ≤ e := by
    have : 2 * e.ediv 2 ≤ e := Int.mul_ediv_self_le (by norm_num)
    omega
  have hval : Real.sqrt (m * 2 ^ e) / 2 ^ t = Real.sqrt ((m <<< (e - 2 * t).toNat : ℕ) : ℝ) := by
    have hp : (0 : ℝ) < 2 ^ t := zpow_pos (by norm_num) _
    rw [div_eq_iff hp.ne', Nat.shiftLeft_eq, zpow_eq_mul_zpow hle', two_mul, zpow_add₀ (by norm_num)]
    push_cast
    rw [← mul_assoc, Real.sqrt_mul (by positivity), Real.sqrt_mul_self hp.le]
  have := cut_sqrt (m <<< (e - 2 * t).toNat)
  rw [← hval] at this
  exact this

/-- **The square root of a canonical form is nearest to the exact square root.** -/
theorem sqrt_spec {a : UnpackedFloat} (ha : Canonical a) (h0 : 0 ≤ real a) :
    Canonical (sqrt .binary64 a) ∧ real (sqrt .binary64 a) = nearest (Real.sqrt (real a)) := by
  cases a with
  | infinity s => exact ha.elim
  | notANumber => exact ha.elim
  | zero s => exact ⟨trivial, by simp [real, sqrt]⟩
  | finite s m e hm =>
    have hpos : (0 : ℝ) < m * 2 ^ e := mul_pos (by exact_mod_cast hm) (zpow_pos (by norm_num) _)
    cases s with
    | negative => exact absurd h0 (not_le.2 (neg_lt_zero.2 hpos))
    | positive =>
      exact roundWithAccuracy_spec .positive _ (Real.sqrt_pos.2 hpos) (sqrtCore_cut m e)
        ((min_le_right _ _).trans (sqrt_exponent_le hm e))

end Campaign.Binary64
