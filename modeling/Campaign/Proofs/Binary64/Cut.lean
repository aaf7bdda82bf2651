import Campaign.Proofs.Binary64.Nearest

/-!
# Mantissas with residual bits

The operations on doubles cut an exact result down to a mantissa and two bits: the first bit that
was lost, and whether any later one was set. These bits are enough to round the mantissa to the
nearest integer, and the final rounding gives the nearest point of the grid.

## Main statements

* `Cut.roundEven`: the rounded mantissa is the nearest integer.
* `roundWithAccuracy_spec`, `round_spec`: rounding gives a canonical form of the nearest point.
-/

namespace Campaign.Binary64

open Float.Model (Format UnpackedFloat totalExponent)
open Float.Model.UnpackedFloat

/-! ### Residual bits -/

/-- Nothing is cut off an exact mantissa. -/
theorem cut_exact (m : ℕ) : Cut (ExtendedMantissa.ofMantissaAndAccuracy m .exact) m := by
  change (m : ℝ) = m
  rfl

theorem Cut.le {em : ExtendedMantissa} {x : ℝ} (h : Cut em x) : (em.mantissa : ℝ) ≤ x := by
  obtain ⟨m, r, s⟩ := em
  cases r <;> cases s <;> simp only [Cut] at h ⊢
  · exact h.ge
  · exact h.1.le
  · linarith
  · linarith

theorem Cut.lt {em : ExtendedMantissa} {x : ℝ} (h : Cut em x) : x < em.mantissa + 1 := by
  obtain ⟨m, r, s⟩ := em
  cases r <;> cases s <;> simp only [Cut] at h ⊢ <;> linarith

/-- The rounded mantissa is the nearest integer. -/
theorem Cut.roundEven {em : ExtendedMantissa} {x : ℝ} (h : Cut em x) :
    roundEven x = em.roundedMantissa := by
  obtain ⟨m, r, s⟩ := em
  have key : ∀ n : ℕ, |x - n| ≤ 1 / 2 → (|x - n| = 1 / 2 → n % 2 = 0) →
      Binary64.roundEven x = n := by
    intro n h1 h2
    refine Binary64.roundEven_eq (by exact_mod_cast h1) fun h3 => ?_
    have := h2 (by exact_mod_cast h3)
    omega
  cases r <;> cases s <;> simp only [Cut] at h
  · subst h
    exact key m (by norm_num) (by norm_num)
  · have e : |x - m| = x - m := abs_of_pos (by linarith)
    exact key m (by rw [e]; linarith) (by rw [e]; intro; linarith)
  · have hmod : m % 2 = 0 ∨ m % 2 = 1 := by omega
    rcases hmod with hm | hm
    · have e : |x - m| = 1 / 2 := by rw [h, add_sub_cancel_left]; norm_num
      simpa [ExtendedMantissa.roundedMantissa, ExtendedMantissa.accuracy,
        Accuracy.roundToNearestEven, hm] using key m e.le fun _ => hm
    · have e : |x - ((m + 1 : ℕ) : ℝ)| = 1 / 2 := by
        rw [h]; push_cast; rw [show (m : ℝ) + 1 / 2 - (m + 1) = -(1 / 2) by ring]; norm_num
      simpa [ExtendedMantissa.roundedMantissa, ExtendedMantissa.accuracy,
        Accuracy.roundToNearestEven, hm] using key (m + 1) e.le fun _ => by omega
  · have e : |x - ((m + 1 : ℕ) : ℝ)| = m + 1 - x := by
      push_cast; rw [abs_of_neg (by linarith)]; ring
    exact key (m + 1) (by rw [e]; linarith) (by rw [e]; intro; linarith)

theorem Cut.shiftRightOne {em : ExtendedMantissa} {x : ℝ} (h : Cut em x) :
    Cut em.shiftRightOne (x / 2) := by
  obtain ⟨m, r, s⟩ := em
  have hm : ((m % 2 : ℕ) : ℝ) + 2 * ((m / 2 : ℕ) : ℝ) = m := by exact_mod_cast Nat.mod_add_div m 2
  rcases Nat.mod_two_eq_zero_or_one m with h2 | h2 <;> rw [h2] at hm <;> push_cast at hm <;>
    cases r <;> cases s <;>
    simp only [Cut, ExtendedMantissa.shiftRightOne, h2, Bool.or_false, Bool.or_true,
      bne_self_eq_false, Nat.reduceBneDiff] at h ⊢ <;>
    first
    | linarith
    | constructor <;> linarith

theorem Cut.shiftRight {em : ExtendedMantissa} {x : ℝ} (h : Cut em x) (n : ℕ) :
    Cut (em >>> n) (x / 2 ^ n) := by
  induction n with
  | zero => simpa [HShiftRight.hShiftRight, Nat.repeat] using h
  | succ n ih =>
    rw [pow_succ, ← div_div]
    exact ih.shiftRightOne

/-! ### Canonical forms -/

theorem targetExponent_eq (m : ℕ) (e : ℤ) :
    Format.binary64.targetExponent (totalExponent m e) = max (m.log2 + e - 52) (-1074) := by
  simp only [Format.targetExponent, totalExponent, Format.mantissaBits, Format.minExponent]
  norm_num
  omega

/-- The magnitude of a number is that of its integer part on a grid where this is not zero. -/
theorem log_of_floor {x : ℝ} {m : ℕ} {e : ℤ} (hm : m ≠ 0) (h1 : (m : ℝ) ≤ x / 2 ^ e)
    (h2 : x / 2 ^ e < m + 1) : Int.log 2 |x| = m.log2 + e := by
  have hp : (0 : ℝ) < 2 ^ e := zpow_pos (by norm_num) _
  have hm0 : (0 : ℝ) < m := by exact_mod_cast Nat.pos_of_ne_zero hm
  have hx : 0 < x := by
    have := hm0.trans_le h1
    rwa [lt_div_iff₀ hp, zero_mul] at this
  rw [le_div_iff₀ hp] at h1
  rw [div_lt_iff₀ hp] at h2
  rw [abs_of_pos hx]
  apply le_antisymm
  · have hle : ((m + 1 : ℕ) : ℝ) ≤ ((2 ^ (m.log2 + 1) : ℕ) : ℝ) := by
      exact_mod_cast Nat.lt_log2_self (n := m)
    have hlt : x < 2 ^ ((m.log2 : ℤ) + 1 + e) := by
      rw [zpow_add₀ (by norm_num)]
      refine h2.trans_le (mul_le_mul_of_nonneg_right ?_ hp.le)
      push_cast at hle
      exact_mod_cast hle
    have := (Int.lt_zpow_iff_log_lt (b := 2) (by norm_num) hx).1 (by exact_mod_cast hlt)
    omega
  · refine (Int.zpow_le_iff_le_log (b := 2) (by norm_num) hx).1 ?_
    have hle : ((2 ^ m.log2 : ℕ) : ℝ) ≤ m := by exact_mod_cast Nat.log2_self_le hm
    push_cast at hle ⊢
    rw [zpow_add₀ (by norm_num), zpow_natCast]
    exact (mul_le_mul_of_nonneg_right hle hp.le).trans h1

/-- The exponent that a mantissa is shifted to is that of the grid around the number. -/
theorem targetExponent_of_cut {x : ℝ} {m : ℕ} {e : ℤ} (hx : 0 < x) (h1 : (m : ℝ) ≤ x / 2 ^ e)
    (h2 : x / 2 ^ e < m + 1) (he : e ≤ unitExponent x) :
    Format.binary64.targetExponent (totalExponent m e) = unitExponent x := by
  rw [targetExponent_eq]
  obtain rfl | hm := eq_or_ne m 0
  · have hp : (0 : ℝ) < 2 ^ e := zpow_pos (by norm_num) _
    rw [Nat.cast_zero, zero_add, div_lt_one hp] at h2
    have := (Int.lt_zpow_iff_log_lt (b := 2) (by norm_num) hx).1 (by exact_mod_cast h2)
    unfold unitExponent at he ⊢
    rw [abs_of_pos hx] at he ⊢
    simp only [Nat.log2_zero, Nat.cast_zero, zero_add]
    omega
  · unfold unitExponent
    rw [log_of_floor hm h1 h2]

theorem shiftToExponent_spec (acc : Accuracy) {m : ℕ} {e t : ℤ} {x : ℝ} (he : e ≤ t)
    (hc : Cut (ExtendedMantissa.ofMantissaAndAccuracy m acc) (x / 2 ^ e)) :
    ∃ em, shiftToExponent m e acc t = (em, t) ∧ Cut em (x / 2 ^ t) := by
  refine ⟨_, Prod.ext rfl ?_, ?_⟩
  · simp only [shiftToExponent]
    omega
  · have hk : ((t - e).toNat : ℤ) = t - e := by omega
    have := hc.shiftRight (t - e).toNat
    rw [div_div, ← zpow_natCast, ← zpow_add₀ (by norm_num), hk, add_sub_cancel] at this
    exact this

theorem shiftToTargetExponent_of_lt {m : ℕ} {e : ℤ} (hm : m < 2 ^ 53) (he : -1074 ≤ e) :
    shiftToTargetExponent .binary64 m e .exact = (⟨m, false, false⟩, e) := by
  have hlog : m.log2 ≤ 52 := by
    obtain rfl | h := eq_or_ne m 0
    · simp
    · have := (Nat.log2_lt h).2 hm
      omega
  have hs : (max ((m.log2 : ℤ) + e - 52) (-1074) - e).toNat = 0 := by omega
  rw [shiftToTargetExponent, targetExponent_eq]
  simp [shiftToExponent, hs, ExtendedMantissa.ofMantissaAndAccuracy, HShiftRight.hShiftRight,
    Nat.repeat]

theorem shiftToTargetExponent_of_eq {e : ℤ} (he : -1074 ≤ e) :
    shiftToTargetExponent .binary64 (2 ^ 53) e .exact = (⟨2 ^ 52, false, false⟩, e + 1) := by
  have ht : max (((2 ^ 53 : ℕ).log2 : ℤ) + e - 52) (-1074) = e + 1 := by
    rw [Nat.log2_two_pow]; omega
  rw [shiftToTargetExponent, targetExponent_eq, ht]
  simp only [shiftToExponent, show (e + 1 - e).toNat = 1 by omega]
  rfl

/-- A mantissa that was rounded on the grid of its number keeps its value when it is brought into
canonical form. -/
theorem canonical_of_rounded (s : Sign) {r : ℕ} {t : ℤ} (hr : r ≤ 2 ^ 53) (ht : -1074 ≤ t)
    (hn : 2 ^ 52 ≤ r ∨ t = -1074) :
    let final := shiftToTargetExponent .binary64 r t .exact
    let u : UnpackedFloat := if h : final.1.mantissa = 0 then .zero s
      else .finite s final.1.mantissa final.2 (Nat.pos_of_ne_zero h)
    Canonical u ∧ real u = signed s (r * 2 ^ t) := by
  rcases hr.lt_or_eq with hlt | rfl
  · simp only [shiftToTargetExponent_of_lt hlt ht]
    split_ifs with h
    · subst h
      exact ⟨trivial, by cases s <;> simp [real, signed]⟩
    · exact ⟨⟨hlt, ht, hn⟩, rfl⟩
  · simp only [shiftToTargetExponent_of_eq ht]
    rw [dif_neg (by norm_num)]
    refine ⟨⟨by norm_num, by omega, Or.inl le_rfl⟩, ?_⟩
    have e : ((2 ^ 52 : ℕ) : ℝ) * 2 ^ (t + 1) = ((2 ^ 53 : ℕ) : ℝ) * 2 ^ t := by
      rw [zpow_add₀ (by norm_num)]; push_cast; ring
    simp only [real, e]

/-- **Rounding a cut mantissa gives the nearest point of the grid.** -/
theorem roundWithAccuracy_spec (s : Sign) (acc : Accuracy) {m : ℕ} {e : ℤ} {x : ℝ} (hx : 0 < x)
    (hc : Cut (ExtendedMantissa.ofMantissaAndAccuracy m acc) (x / 2 ^ e)) (he : e ≤ unitExponent x) :
    Canonical (roundWithAccuracy .binary64 s m e acc) ∧
      real (roundWithAccuracy .binary64 s m e acc) = signed s (nearest x) := by
  have hm : (ExtendedMantissa.ofMantissaAndAccuracy m acc).mantissa = m := by
    cases acc with
    | exact => rfl
    | inexact o => cases o <;> rfl
  have htarget := targetExponent_of_cut hx (by simpa [hm] using hc.le) (by simpa [hm] using hc.lt) he
  obtain ⟨em, hshift, hcut⟩ := shiftToExponent_spec acc he hc
  have hfirst : shiftToTargetExponent .binary64 m e acc = (em, unitExponent x) := by
    rw [shiftToTargetExponent, htarget, hshift]
  have hround : roundEven (x / 2 ^ unitExponent x) = em.roundedMantissa := hcut.roundEven
  have hle : em.roundedMantissa ≤ 2 ^ 53 := by
    have := abs_roundEven_le (n := 2 ^ 53) (by exact_mod_cast (abs_div_units_lt x).le)
    rw [hround, Nat.abs_cast] at this
    exact_mod_cast this
  have hnorm : 2 ^ 52 ≤ em.roundedMantissa ∨ unitExponent x = -1074 := by
    rcases (le_unitExponent x).lt_or_eq with h | h
    · left
      have hp : (0 : ℝ) < 2 ^ unitExponent x := zpow_pos (by norm_num) _
      have h1 := units_le_abs hx.ne' h
      rw [abs_of_pos hx, add_comm, zpow_add₀ (by norm_num), ← le_div_iff₀ hp] at h1
      have h2 := roundEven_mono h1
      rw [hround, show (2 : ℝ) ^ (52 : ℤ) = ((2 ^ 52 : ℤ) : ℝ) by norm_num, roundEven_intCast] at h2
      exact_mod_cast h2
    · exact Or.inr h.symm
  have := canonical_of_rounded s hle (le_unitExponent x) hnorm
  unfold roundWithAccuracy
  rw [hfirst]
  refine ⟨this.1, this.2.trans ?_⟩
  rw [nearest, hround, Int.cast_natCast]

/-- A number on a grid that is finer by `k` binary digits. -/
theorem mul_zpow_div (m : ℕ) (e : ℤ) (k : ℕ) :
    (m : ℝ) * 2 ^ e / 2 ^ (e - k) = ((m <<< k : ℕ) : ℝ) := by
  rw [div_eq_iff (zpow_pos (by norm_num) _).ne', Nat.shiftLeft_eq]
  push_cast
  rw [mul_assoc, ← zpow_natCast, ← zpow_add₀ (by norm_num), add_sub_cancel]

/-- Rounding an exact positive number, whatever exponent it is written with. -/
theorem round_spec (s : Sign) {m : ℕ} (hm : 0 < m) (e : ℤ) :
    Canonical (UnpackedFloat.round .binary64 s m e) ∧
      real (UnpackedFloat.round .binary64 s m e) = signed s (nearest (m * 2 ^ e)) := by
  have hp : ∀ k : ℤ, (0 : ℝ) < 2 ^ k := fun k => zpow_pos (by norm_num) k
  have hm0 : (0 : ℝ) < m := by exact_mod_cast hm
  set x : ℝ := m * 2 ^ e with hx
  have hx0 : 0 < x := mul_pos hm0 (hp e)
  have hlog : Int.log 2 |x| = m.log2 + e := by
    have e1 : x / 2 ^ e = m := by rw [hx, mul_div_cancel_right₀ _ (hp e).ne']
    exact log_of_floor hm.ne' e1.ge (by rw [e1]; linarith)
  have htarget : Format.binary64.targetExponent (totalExponent m e) = unitExponent x := by
    rw [targetExponent_eq, unitExponent, hlog]
  set k := (e - unitExponent x).toNat with hk
  have := roundWithAccuracy_spec s .exact (m := m <<< k) (e := e - k) hx0
    (by rw [hx, mul_zpow_div]; exact cut_exact _) (by omega)
  simpa only [UnpackedFloat.round, htarget, decreaseExponent] using this

end Campaign.Binary64
