import Campaign.Proofs.Binary64.Extended
import Campaign.Proofs.Binary64.Extremes

/-!
# Results that may overflow

The result of an operation on numbers is the exact result, rounded, or the infinity of its sign if
that is too large (`RoundsTo`). Read as an extended real number it never falls when the exact result
grows. Infinities stay what they are if a number is subtracted from them, and if they are divided or
multiplied by a positive one; so these steps are monotone on all doubles that are not not-a-number
(`Lifts`).

* `RoundsTo x r`: the double is what an operation with the exact result `r` returns;
* `Lifts f φ`: the operation computes a real function and keeps the infinities.

## Main statements

* `Lifts.le`: a lifted monotone function is monotone;
* `lifts_sub`, `lifts_div`, `lifts_mul`: the steps with a fixed operand;
* `clamp_le_clamp`: clamping is monotone.
-/

namespace Campaign.Binary64

open Float.Model (UnpackedFloat)
open Float.Model.UnpackedFloat

/-- A double is the rounded value of a real number, or the infinity in its place. -/
structure RoundsTo (x : Float) (r : ℝ) : Prop where
  isNaN : x.isNaN = false
  toEReal_eq : toEReal x = overflow (nearest r)

/-- An operation computes a real function with one rounding, and keeps the infinities. -/
structure Lifts (f : Float → Float) (φ : ℝ → ℝ) : Prop where
  finite : ∀ {x : Float} {a : ℝ}, HasValue x a → RoundsTo (f x) (φ a)
  infinite : ∀ {x : Float} {s : Sign}, x.toModel.unpack = .infinity s →
    (f x).toModel.unpack = .infinity s

/-! ### Rounding with overflow -/

theorem overflow_of_abs_lt {r : ℝ} (h : |r| < 2 ^ 1024) : overflow r = r := by
  obtain ⟨hlow, hhigh⟩ := abs_lt.1 h
  rw [overflow, if_neg (not_le.2 hhigh), if_neg (not_le.2 hlow)]

theorem overflow_mono {a b : ℝ} (h : a ≤ b) : overflow a ≤ overflow b := by
  rcases le_or_gt (2 ^ 1024) b with hb | hb
  · rw [overflow.eq_def b, if_pos hb]
    exact le_top
  rcases le_or_gt a (-2 ^ 1024) with ha | ha
  · rw [overflow, if_neg (not_le.2 (h.trans_lt hb)), if_pos ha]
    exact bot_le
  · rw [overflow_of_abs_lt (abs_lt.2 ⟨ha, h.trans_lt hb⟩),
      overflow_of_abs_lt (abs_lt.2 ⟨ha.trans_le h, hb⟩)]
    exact EReal.coe_le_coe_iff.2 h

theorem overflow_of_signed {s : Sign} {r : ℝ} (h : 2 ^ 1024 ≤ signed s r) :
    overflow r = infinityOf s := by
  have hpos : (0 : ℝ) < 2 ^ 1024 := by positivity
  unfold overflow
  generalize (2 : ℝ) ^ 1024 = bound at *
  cases s with
  | positive => exact if_pos h
  | negative =>
    have hlow : r ≤ -bound := le_neg_of_le_neg h
    rw [if_neg (by linarith), if_pos hlow]
    rfl

section

variable {x y : Float} {a b : ℝ}

theorem HasValue.roundsTo (hx : HasValue x a) : RoundsTo x a where
  isNaN := hx.isNaN
  toEReal_eq := by
    rw [hx.toEReal_eq, nearest_of_onGrid hx.onGrid, overflow_of_abs_lt hx.abs_lt]

/-- What is packed from a canonical form. -/
theorem roundsTo_ofModel {u : UnpackedFloat} (hu : Canonical u ∧ real u = nearest a) :
    RoundsTo (.ofModel (.pack u)) a where
  isNaN := isNaN_pack hu.1
  toEReal_eq := by
    obtain ⟨hc, hr⟩ := hu
    rcases lt_or_ge |nearest a| (2 ^ 1024) with h | h
    · rw [(hasValue_ofModel ⟨hc, hr⟩ h).toEReal_eq, overflow_of_abs_lt h]
    · rw [← hr] at h ⊢
      obtain ⟨s, hpos, hs⟩ := unpack_pack_overflow hc h
      have hinfinity : (Float.ofModel (.pack u)).toModel.unpack = .infinity s := hs
      rw [← abs_signed s, abs_of_pos hpos] at h
      rw [toEReal_of_unpack hinfinity, overflow_of_signed h]

theorem HasValue.roundsTo_add (hx : HasValue x a) (hy : HasValue y b) :
    RoundsTo (x + y) (a + b) := by
  obtain ⟨hcx, rfl⟩ := hx.canonical
  obtain ⟨hcy, rfl⟩ := hy.canonical
  exact roundsTo_ofModel (add_spec hcx hcy)

theorem HasValue.roundsTo_sub (hx : HasValue x a) (hy : HasValue y b) :
    RoundsTo (x - y) (a - b) := by
  obtain ⟨hcx, rfl⟩ := hx.canonical
  obtain ⟨hcy, rfl⟩ := hy.canonical
  exact roundsTo_ofModel (sub_spec hcx hcy)

theorem HasValue.roundsTo_mul (hx : HasValue x a) (hy : HasValue y b) :
    RoundsTo (x * y) (a * b) := by
  obtain ⟨hcx, rfl⟩ := hx.canonical
  obtain ⟨hcy, rfl⟩ := hy.canonical
  exact roundsTo_ofModel (mul_spec hcx hcy)

theorem HasValue.roundsTo_div (hx : HasValue x a) (hy : HasValue y b) (hb : b ≠ 0) :
    RoundsTo (x / y) (a / b) := by
  obtain ⟨hcx, rfl⟩ := hx.canonical
  obtain ⟨hcy, rfl⟩ := hy.canonical
  exact roundsTo_ofModel (div_spec hcx hcy hb)

/-- Natural numbers of any size. -/
theorem roundsTo_natCast (n : ℕ) : RoundsTo n.toFloat n := by
  by_cases h : n < 2 ^ 53
  · exact (hasValue_natCast h.le).roundsTo
  · have hopen : n.toFloat = .ofModel (.pack (ofScientific .binary64 n 0)) := by
      change Float.ofScientific n false 0 = _
      unfold Float.ofScientific
      exact dif_neg fun hc => h hc.1
    rw [hopen]
    exact roundsTo_ofModel (ofScientific_spec (not_lt.1 h))

theorem RoundsTo.le (hx : RoundsTo x a) (hy : RoundsTo y b) (h : a ≤ b) : x ≤ y := by
  rw [le_iff_toEReal hx.isNaN hy.isNaN, hx.toEReal_eq, hy.toEReal_eq]
  exact overflow_mono (nearest_mono h)

/-- A result that is finite did not overflow. -/
theorem RoundsTo.hasValue (hx : RoundsTo x a) (h : x.isFinite = true) :
    HasValue x (nearest a) := by
  have hvalue := hasValue_toReal h
  have heq := hvalue.toEReal_eq.symm.trans hx.toEReal_eq
  unfold overflow at heq
  split_ifs at heq with hhigh hlow
  · exact absurd heq (EReal.coe_ne_top _)
  · exact absurd heq (EReal.coe_ne_bot _)
  · rwa [EReal.coe_eq_coe_iff.1 heq] at hvalue

theorem hasValue_natCast_of_isFinite {n : ℕ} (h : n.toFloat.isFinite = true) :
    HasValue n.toFloat (nearest n) := (roundsTo_natCast n).hasValue h

/-! ### Operations that keep the infinities -/

theorem isNaN_of_unpack {s : Sign} (h : x.toModel.unpack = .infinity s) : x.isNaN = false := by
  change x.toModel.unpack.isNaN = false
  rw [h]
  rfl

section

variable {f : Float → Float} {φ : ℝ → ℝ}

theorem Lifts.isNaN (hf : Lifts f φ) (hx : x.isNaN = false) : (f x).isNaN = false := by
  rcases toEReal_cases hx with ⟨r, hr, -⟩ | ⟨s, hs, -⟩
  · exact (hf.finite hr).isNaN
  · exact isNaN_of_unpack (hf.infinite hs)

/-- **A lifted monotone function is monotone**, also where it overflows. -/
theorem Lifts.le (hf : Lifts f φ) (hφ : Monotone φ) (h : x ≤ y) : f x ≤ f y := by
  have hx := isNaN_of_le h
  have hy := isNaN_right_of_le h
  rw [le_iff_toEReal hx hy] at h
  rcases toEReal_cases hx with ⟨a, ha, hxa⟩ | ⟨s, hs, hxs⟩ <;>
    rcases toEReal_cases hy with ⟨b, hb, hyb⟩ | ⟨t, ht, hyt⟩
  · rw [hxa, hyb, EReal.coe_le_coe_iff] at h
    exact (hf.finite ha).le (hf.finite hb) (hφ h)
  · rw [le_iff_toEReal (hf.isNaN hx) (hf.isNaN hy), toEReal_of_unpack (hf.infinite ht)]
    cases t with
    | positive => exact le_top
    | negative =>
      rw [hxa, hyt] at h
      exact absurd h (not_le.2 (EReal.bot_lt_coe a))
  · rw [le_iff_toEReal (hf.isNaN hx) (hf.isNaN hy), toEReal_of_unpack (hf.infinite hs)]
    cases s with
    | positive =>
      rw [hxs, hyb] at h
      exact absurd h (not_le.2 (EReal.coe_lt_top b))
    | negative => exact bot_le
  · rw [hxs, hyt] at h
    rwa [le_iff_toEReal (hf.isNaN hx) (hf.isNaN hy), toEReal_of_unpack (hf.infinite hs),
      toEReal_of_unpack (hf.infinite ht)]

/-- A lifted function that lies below its argument. -/
theorem Lifts.le_self (hf : Lifts f φ) (hφ : ∀ a, φ a ≤ a) (hx : x.isNaN = false) : f x ≤ x := by
  rcases toEReal_cases hx with ⟨a, ha, -⟩ | ⟨s, hs, hxs⟩
  · exact (hf.finite ha).le ha.roundsTo (hφ a)
  · rw [le_iff_toEReal (hf.isNaN hx) hx, hxs, toEReal_of_unpack (hf.infinite hs)]

end

/-! ### Steps with a fixed operand -/

theorem infinity_sub {u : UnpackedFloat} (hu : Canonical u) (s : Sign) :
    UnpackedFloat.sub .binary64 (.infinity s) u = .infinity s := by
  cases u with
  | infinity t => exact hu.elim
  | notANumber => exact hu.elim
  | zero t => rfl
  | finite t m e hm => rfl

theorem lifts_sub (hy : HasValue y b) : Lifts (· - y) (· - b) where
  finite hx := hx.roundsTo_sub hy
  infinite {x s} hs := by
    change UnpackedFloat.unpack .binary64 (UnpackedFloat.pack .binary64
      (UnpackedFloat.sub .binary64 x.toModel.unpack y.toModel.unpack)) = _
    rw [hs, infinity_sub hy.canonical.1, unpack_pack_infinity]

theorem exists_eq_finite_of_pos {u : UnpackedFloat} (hu : Canonical u) (h0 : 0 < real u) :
    ∃ m e hm, u = .finite .positive m e hm := by
  cases u with
  | infinity t => exact hu.elim
  | notANumber => exact hu.elim
  | zero t => exact absurd h0 (lt_irrefl _)
  | finite t m e hm =>
    cases t with
    | positive => exact ⟨m, e, hm, rfl⟩
    | negative => exact absurd (real_negative_lt hm) (not_lt.2 h0.le)

theorem infinity_div {u : UnpackedFloat} (hu : Canonical u) (h0 : 0 < real u) (s : Sign) :
    UnpackedFloat.div .binary64 (.infinity s) u = .infinity s := by
  obtain ⟨m, e, hm, rfl⟩ := exists_eq_finite_of_pos hu h0
  cases s <;> rfl

theorem lifts_div (hy : HasValue y b) (hb : 0 < b) : Lifts (· / y) (· / b) where
  finite hx := hx.roundsTo_div hy hb.ne'
  infinite {x s} hs := by
    obtain ⟨hc, rfl⟩ := hy.canonical
    change UnpackedFloat.unpack .binary64 (UnpackedFloat.pack .binary64
      (UnpackedFloat.div .binary64 x.toModel.unpack y.toModel.unpack)) = _
    rw [hs, infinity_div hc hb, unpack_pack_infinity]

theorem infinity_mul {u : UnpackedFloat} (hu : Canonical u) (h0 : 0 < real u) (s : Sign) :
    UnpackedFloat.mul .binary64 (.infinity s) u = .infinity s := by
  obtain ⟨m, e, hm, rfl⟩ := exists_eq_finite_of_pos hu h0
  cases s <;> rfl

theorem lifts_mul (hy : HasValue y b) (hb : 0 < b) : Lifts (· * y) (· * b) where
  finite hx := hx.roundsTo_mul hy
  infinite {x s} hs := by
    obtain ⟨hc, rfl⟩ := hy.canonical
    change UnpackedFloat.unpack .binary64 (UnpackedFloat.pack .binary64
      (UnpackedFloat.mul .binary64 x.toModel.unpack y.toModel.unpack)) = _
    rw [hs, infinity_mul hc hb, unpack_pack_infinity]

theorem toEReal_clamp (hx : x.isNaN = false) :
    (clamp 0 1 x).isNaN = false ∧ toEReal (clamp 0 1 x) = max 0 (min 1 (toEReal x)) := by
  have hzero := hasValue_zero.toEReal_eq
  have hone := hasValue_one.toEReal_eq
  rw [EReal.coe_zero] at hzero
  rw [EReal.coe_one] at hone
  have hbelow := lt_iff_toEReal hx hasValue_zero.isNaN
  have habove := lt_iff_toEReal hasValue_one.isNaN hx
  rw [hzero] at hbelow
  rw [hone] at habove
  unfold clamp
  split_ifs with h0 h1
  · have hle := (min_le_right 1 _).trans (hbelow.1 h0).le
    exact ⟨hasValue_zero.isNaN, by rw [hzero, max_eq_left hle]⟩
  · exact ⟨hasValue_one.isNaN, by rw [hone, min_eq_left (habove.1 h1).le, max_eq_right zero_le_one]⟩
  · rw [hbelow, not_lt] at h0
    rw [habove, not_lt] at h1
    exact ⟨hx, by rw [min_eq_right h1, max_eq_right h0]⟩

theorem clamp_le_clamp (h : x ≤ y) : clamp 0 1 x ≤ clamp 0 1 y := by
  obtain ⟨hnx, hx⟩ := toEReal_clamp (isNaN_of_le h)
  obtain ⟨hny, hy⟩ := toEReal_clamp (isNaN_right_of_le h)
  rw [le_iff_toEReal (isNaN_of_le h) (isNaN_right_of_le h)] at h
  rw [le_iff_toEReal hnx hny, hx, hy]
  exact max_le_max le_rfl (min_le_min le_rfl h)

/-! ### Results that are numbers -/

theorem add_infinity {u : UnpackedFloat} (hu : Canonical u) (s : Sign) :
    UnpackedFloat.add .binary64 u (.infinity s) = .infinity s := by
  cases u with
  | infinity t => exact hu.elim
  | notANumber => exact hu.elim
  | zero t => rfl
  | finite t m e hm => rfl

theorem isNaN_add (hx : x.isFinite = true) (hy : y.isNaN = false) : (x + y).isNaN = false := by
  have ha := hasValue_toReal hx
  rcases toEReal_cases hy with ⟨b, hb, -⟩ | ⟨s, hs, -⟩
  · exact (ha.roundsTo_add hb).isNaN
  · refine isNaN_of_unpack (s := s) ?_
    change UnpackedFloat.unpack .binary64 (UnpackedFloat.pack .binary64
      (UnpackedFloat.add .binary64 x.toModel.unpack y.toModel.unpack)) = _
    rw [hs, add_infinity ha.canonical.1, unpack_pack_infinity]

theorem isNaN_neg : (-x).isNaN = x.isNaN := by
  change (-x).toModel.unpack.isNaN = x.toModel.unpack.isNaN
  rw [unpack_neg]
  cases x.toModel.unpack <;> rfl

theorem isNaN_sub (hx : x.isFinite = true) (hy : y.isNaN = false) : (x - y).isNaN = false := by
  rw [Binary64.sub_eq_add_neg]
  exact isNaN_add hx (isNaN_neg.trans hy)

theorem isNaN_max (hx : x.isNaN = false) (hy : y.isNaN = false) : (max x y).isNaN = false := by
  change (if x ≤ y then y else x).isNaN = false
  split_ifs
  · exact hy
  · exact hx

/-- The terms of a finite sum are finite. -/
theorem isFinite_of_mem_sum {l : List Float} (h : (sum l).isFinite = true) :
    ∀ z ∈ l, z.isFinite = true := by
  induction l using List.reverseRecOn with
  | nil => exact fun z hz => absurd hz List.not_mem_nil
  | append_singleton l z ih =>
    rw [sum_append_singleton] at h
    obtain ⟨hsum, hz⟩ := isFinite_of_add h
    intro w hw
    rcases List.mem_append.1 hw with hw | hw
    · exact ih hsum w hw
    · rwa [List.mem_singleton.1 hw]

end

end Campaign.Binary64
