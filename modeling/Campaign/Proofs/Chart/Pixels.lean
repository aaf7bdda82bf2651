import Campaign.Chart.Drawing
import Campaign.Proofs.Binary64.Overflow
import Campaign.Proofs.Chart.Range
import Campaign.Proofs.Decimal.Shortest

/-!
# From coordinates to pixels

A coordinate is turned into the part of its axis that lies below it, the part is stretched to the
length of the axis in pixels, and the result is rounded to a whole number. Every step is monotone,
and every step maps the ends of an interval to the ends of the next.

On the horizontal axis the slots are the whole numbers. From `2^53` on neighbouring slots may have
the same double, but then half a slot is rounded away, so bars still do not overlap. Should the
number of bars overflow, all columns are the first one.

* `portion`: the part of an axis below a coordinate;
* `columnOf`, `rowOf`: the pixel of a part.

## Main statements

* `floor?_eq`, `ceil?_eq`: the neighbouring integers of a double;
* `nearest_slot_le`: what stands right of a slot is not beyond what stands left of the next;
* `column_eq`, `row_eq`: the pixel of a coordinate, from its number.
-/

namespace Campaign

open Binary64
open Float.Model.UnpackedFloat (Sign)

namespace Binary64

/-! ### Neighbouring integers -/

/-- The number of a double as the quotient that its neighbours are computed from. -/
theorem HasValue.exists_fraction {x : Float} {r : ℝ} (hx : HasValue x r) :
    ∃ negative m q, value x = .finite negative m q ∧
      r = ((fraction negative m q).1 : ℝ) / (fraction negative m q).2 := by
  obtain ⟨negative, m, q, hvalue⟩ := exists_value_of_isFinite hx.isFinite
  refine ⟨negative, m, q, hvalue, ?_⟩
  have hpower := Decimal.pow_toNat_div (b := 2) (by decide) q
  have hreal := toReal_of_value hvalue
  rw [hx.toReal_eq] at hreal
  rw [hreal, fraction]
  push_cast at hpower ⊢
  rw [Nat.pow_eq, Nat.pow_eq]
  push_cast
  rw [mul_div_assoc, hpower]
  cases negative <;> simp

theorem floor?_eq {x : Float} {r : ℝ} (hx : HasValue x r) : floor? x = some ⌊r⌋ := by
  obtain ⟨negative, m, q, hvalue, rfl⟩ := hx.exists_fraction
  rw [floor?, hvalue, Int.floor_div_natCast, Int.floor_intCast]

theorem ceil?_eq {x : Float} {r : ℝ} (hx : HasValue x r) : ceil? x = some ⌈r⌉ := by
  obtain ⟨negative, m, q, hvalue, rfl⟩ := hx.exists_fraction
  rw [ceil?, hvalue, ← neg_neg ⌈_⌉, ← Int.floor_neg, ← neg_div, ← Int.cast_neg,
    Int.floor_div_natCast, Int.floor_intCast]

theorem floor?_of_not_isFinite {x : Float} (h : ¬ x.isFinite = true) : floor? x = none := by
  unfold floor?
  cases hvalue : value x with
  | nan => rfl
  | infinite negative => rfl
  | finite negative m q => exact absurd (isFinite_of_value hvalue) h

/-! ### Slots -/

/-- From `2^53` on the unit is at least two. -/
theorem HasValue.exists_large {x : Float} {r : ℝ} (hx : HasValue x r) (hr : 2 ^ 53 ≤ r) :
    ∃ (m : ℕ) (e : ℤ) (hm : 0 < m), Canonical (.finite .positive m e hm) ∧ r = m * 2 ^ e ∧
      1 ≤ e := by
  obtain ⟨hc, hreal⟩ := hx.canonical
  have hpos : 0 < r := lt_of_lt_of_le (by positivity) hr
  cases hu : x.toModel.unpack with
  | infinity s =>
    rw [hu] at hc
    exact hc.elim
  | notANumber =>
    rw [hu] at hc
    exact hc.elim
  | zero s =>
    rw [hu] at hreal
    exact absurd hreal hpos.ne
  | finite s m e hm =>
    rw [hu] at hc hreal
    cases s with
    | negative => exact absurd (hreal ▸ real_negative_lt hm) (not_lt.2 hpos.le)
    | positive =>
      have hreal : (m : ℝ) * 2 ^ e = r := hreal
      refine ⟨m, e, hm, hc, hreal.symm, ?_⟩
      by_contra hless
      have hunit : (2 : ℝ) ^ e ≤ 1 := zpow_le_one_of_nonpos₀ one_le_two (by omega)
      have hmantissa : (m : ℝ) < 2 ^ 53 := by exact_mod_cast hc.1
      have hpower : (0 : ℝ) < 2 ^ e := by positivity
      nlinarith

/-- From `2^53` on half of one is rounded away. -/
theorem nearest_add_of_large {x : Float} {r d : ℝ} (hx : HasValue x r) (hr : 2 ^ 53 ≤ r)
    (hd : |d| ≤ 1 / 2) : nearest (r + d) = r := by
  obtain ⟨m, e, hm, hc, rfl, he⟩ := hx.exists_large hr
  obtain ⟨hd0, hd1⟩ := abs_le.1 hd
  refine Decimal.nearest_of_rounds hc ?_
  have hquarter : (2 : ℝ) ^ e = 4 * 2 ^ (e - 2) := by
    rw [zpow_sub₀ two_ne_zero]
    norm_num
    ring
  have hunit : 1 / 2 ≤ (2 : ℝ) ^ (e - 2) := by
    have := zpow_le_zpow_right₀ (one_le_two (α := ℝ)) (show -1 ≤ e - 2 by omega)
    rwa [zpow_neg_one, ← one_div] at this
  have hhigh := Decimal.high_eq m e
  rw [hquarter]
  rcases Decimal.low_cases hm e with hlow | ⟨hlow, hpower, -⟩
  · refine ⟨?_, ?_, fun _ => ⟨?_, ?_⟩⟩ <;> simp only [hlow, hhigh] <;> linarith
  · -- the mantissa of a power of two is even, so the ends belong to the interval
    refine ⟨?_, ?_, fun hodd => ?_⟩
    · rw [hlow]; linarith
    · rw [hhigh]; linarith
    · rw [hpower] at hodd
      exact absurd hodd (by simp [Decimal.Interval.of])

/-- The numbers below a number that does not overflow do not. -/
theorem hasValue_natCast_of_le {i j : ℕ} (hij : i ≤ j) (hj : j.toFloat.isFinite = true) :
    HasValue i.toFloat (nearest i) := by
  refine hasValue_natCast_nearest ?_
  have hle : nearest (i : ℝ) ≤ nearest j := nearest_mono (by exact_mod_cast hij)
  rw [abs_of_nonneg (nearest_nonneg i.cast_nonneg)]
  exact (hle.trans (le_abs_self _)).trans_lt (hasValue_natCast_of_isFinite hj).abs_lt

/-- **What stands in a slot is not beyond what stands in a later one**, up to half a slot around the
middle of each. -/
theorem nearest_slot_le {i j : ℕ} (hij : i < j) (hj : j.toFloat.isFinite = true) {a b : ℝ}
    (ha : |a| ≤ 1 / 2) (hb : |b| ≤ 1 / 2) : nearest (nearest i + a) ≤ nearest (nearest j + b) := by
  have hstep : (i : ℝ) + 1 ≤ j := by exact_mod_cast hij
  have hable := (abs_le.1 ha).2
  have hbge := (abs_le.1 hb).1
  rcases le_or_gt j (2 ^ 53) with hsmall | hlarge
  · rw [nearest_of_onGrid (onGrid_natCast hsmall),
      nearest_of_onGrid (onGrid_natCast (hij.le.trans hsmall))]
    exact nearest_mono (by linarith)
  · have hj53 : (2 : ℝ) ^ 53 ≤ nearest j :=
      le_nearest (onGrid_pow 53) (by exact_mod_cast hlarge.le)
    have hjvalue := hasValue_natCast_of_isFinite hj
    rw [nearest_add_of_large hjvalue hj53 hb]
    rcases lt_or_ge i (2 ^ 53) with hi | hi
    · have hi53 : (i : ℝ) + 1 ≤ 2 ^ 53 := by exact_mod_cast hi
      rw [nearest_of_onGrid (onGrid_natCast hi.le)]
      exact nearest_le hjvalue.onGrid (by linarith)
    · have hi53 : (2 : ℝ) ^ 53 ≤ nearest i :=
        le_nearest (onGrid_pow 53) (by exact_mod_cast hi)
      have hle : nearest (i : ℝ) ≤ nearest j := nearest_mono (by linarith)
      rw [nearest_add_of_large (hasValue_natCast_of_le hij.le hj) hi53 ha]
      exact hle

/-- What stands in a slot, does so as a double: half a slot more does not overflow. -/
theorem abs_nearest_slot_lt {i : ℕ} (hi : i.toFloat.isFinite = true) {a : ℝ} (ha : |a| ≤ 1 / 2) :
    |nearest (nearest i + a)| < 2 ^ 1024 := by
  have hvalue := hasValue_natCast_of_isFinite hi
  rcases lt_or_ge i (2 ^ 53) with hsmall | hlarge
  · have hle : (i : ℝ) + 1 ≤ 2 ^ 53 := by exact_mod_cast hsmall
    have hnonneg : (0 : ℝ) ≤ i := i.cast_nonneg
    rw [nearest_of_onGrid (onGrid_natCast hsmall.le)]
    obtain ⟨ha0, ha1⟩ := abs_le.1 ha
    exact abs_nearest_lt (k := 53) (by norm_num) (abs_le.2 ⟨by linarith, by linarith⟩)
  · rw [nearest_add_of_large hvalue (le_nearest (onGrid_pow 53) (by exact_mod_cast hlarge)) ha]
    exact hvalue.abs_lt

end Binary64

/-! ### Parts of an axis -/

/-- The part of the axis from `m` to `M` that lies below `a`. -/
noncomputable def portion (m M a : ℝ) : ℝ := nearest (nearest (a - m) / nearest (M - m))

section

variable {x lo hi : Float} {m M a b : ℝ}

/-- The end of an axis is its whole. -/
theorem portion_le_one (hspan : 0 < nearest (M - m)) (haM : a ≤ M) : portion m M a ≤ 1 := by
  refine nearest_le onGrid_one ?_
  rw [div_le_one hspan]
  exact nearest_mono (by linarith)

theorem portion_nonneg (hspan : 0 < nearest (M - m)) (hma : m ≤ a) : 0 ≤ portion m M a :=
  nearest_nonneg (div_nonneg (nearest_nonneg (by linarith)) hspan.le)

theorem portion_mono (hspan : 0 < nearest (M - m)) (hab : a ≤ b) :
    portion m M a ≤ portion m M b :=
  nearest_mono (div_le_div_of_nonneg_right (nearest_mono (by linarith)) hspan.le)

theorem hasValue_portion (hx : HasValue x a) (hlo : HasValue lo m)
    (hwidth : HasValue (hi - lo) (nearest (M - m))) (hspan : 0 < nearest (M - m)) (hma : m ≤ a)
    (haM : a ≤ M) : HasValue ((x - lo) / (hi - lo)) (portion m M a) := by
  have hdist0 : 0 ≤ nearest (a - m) := nearest_nonneg (by linarith)
  have hdist : |nearest (a - m)| < 2 ^ 1024 := by
    rw [abs_of_nonneg hdist0]
    exact ((nearest_mono (by linarith)).trans (le_abs_self _)).trans_lt hwidth.abs_lt
  refine (hx.sub hlo hdist).div hwidth hspan.ne' ?_
  change |portion m M a| < _
  rw [abs_of_nonneg (portion_nonneg hspan hma)]
  exact (portion_le_one hspan haM).trans_lt (one_lt_pow₀ one_lt_two (by norm_num))

end

/-! ### Columns and rows -/

/-- What is added to a pixel before it is rounded. -/
noncomputable def nudge : ℝ := toReal 0.001

theorem hasValue_nudge : HasValue 0.001 nudge := hasValue_toReal (by decide)

theorem nudge_bounds : 0 ≤ nudge ∧ nudge ≤ 1 / 2 := by
  rw [nudge, toReal_of_value (s := false) (m := 4611686018427388) (q := -62) (by decide)]
  norm_num

/-- The column of a part of the horizontal axis. -/
noncomputable def columnOf (t : ℝ) : ℤ := 80 + ⌊nearest (nearest (699 * t) + nudge)⌋

/-- The row of a part of the vertical axis. -/
noncomputable def rowOf (t : ℝ) : ℤ := 539 + ⌈nearest (nearest (-484 * t) - nudge)⌉

section

variable {t u : ℝ}

theorem columnOf_mono (h : t ≤ u) : columnOf t ≤ columnOf u := by
  have hstretched : nearest (699 * t) ≤ nearest (699 * u) := nearest_mono (by linarith)
  have hfloor := Int.floor_mono (nearest_mono (add_le_add_left hstretched nudge))
  unfold columnOf
  omega

theorem rowOf_anti (h : t ≤ u) : rowOf u ≤ rowOf t := by
  have hstretched : nearest (-484 * u) ≤ nearest (-484 * t) := nearest_mono (by linarith)
  have hceil := Int.ceil_mono (nearest_mono (sub_le_sub_right hstretched nudge))
  unfold rowOf
  omega

theorem columnOf_zero : columnOf 0 = 80 := by
  have hfloor : ⌊nudge⌋ = 0 :=
    Int.floor_eq_zero_iff.2 ⟨nudge_bounds.1, nudge_bounds.2.trans_lt (by norm_num)⟩
  rw [columnOf, mul_zero, nearest_zero, zero_add, nearest_of_onGrid hasValue_nudge.onGrid, hfloor]
  rfl

theorem columnOf_one_le : columnOf 1 ≤ 779 := by
  have hgrid : nearest (699 * 1) = 699 := by
    rw [mul_one]
    exact_mod_cast nearest_of_onGrid (onGrid_natCast (n := 699) (by norm_num))
  have hhalf : OnGrid (1399 / 2) := by
    have := onGrid_half (n := 1399) (by norm_num)
    rwa [Int.cast_ofNat] at this
  have hle : nearest (699 + nudge) ≤ 1399 / 2 :=
    nearest_le hhalf (by linarith [nudge_bounds.2])
  have hfloor : ⌊nearest (699 + nudge)⌋ < 700 := Int.floor_lt.2 (by push_cast; linarith)
  rw [columnOf, hgrid]
  omega

theorem rowOf_zero_le : rowOf 0 ≤ 539 := by
  have hceil : ⌈nearest (-nudge)⌉ ≤ 0 :=
    Int.ceil_le.2 (by exact_mod_cast nearest_le onGrid_zero (by linarith [nudge_bounds.1]))
  rw [rowOf, mul_zero, nearest_zero, zero_sub]
  omega

theorem le_rowOf_one : 55 ≤ rowOf 1 := by
  have hgrid : nearest (-484 * 1) = -484 := by
    rw [mul_one]
    exact_mod_cast nearest_of_onGrid (onGrid_intCast (n := -484) (by norm_num))
  have hhalf : OnGrid (-969 / 2) := by
    exact_mod_cast onGrid_half (n := -969) (by norm_num)
  have hle : -969 / 2 ≤ nearest (-484 - nudge) :=
    le_nearest hhalf (by linarith [nudge_bounds.2])
  have hceil : -485 < ⌈nearest (-484 - nudge)⌉ := Int.lt_ceil.2 (by push_cast; linarith)
  rw [rowOf, hgrid]
  omega

theorem columnOf_mem (h0 : 0 ≤ t) (h1 : t ≤ 1) : 80 ≤ columnOf t ∧ columnOf t ≤ 779 :=
  ⟨columnOf_zero.ge.trans (columnOf_mono h0), (columnOf_mono h1).trans columnOf_one_le⟩

theorem rowOf_mem (h0 : 0 ≤ t) (h1 : t ≤ 1) : 55 ≤ rowOf t ∧ rowOf t ≤ 539 :=
  ⟨le_rowOf_one.trans (rowOf_anti h1), (rowOf_anti h0).trans rowOf_zero_le⟩

/-- A part of an axis in pixels does not overflow. -/
theorem abs_stretched_le {k : ℝ} (hk : |k| ≤ 2 ^ 10) (h0 : 0 ≤ t) (h1 : t ≤ 1) :
    |k * t| ≤ 2 ^ 10 := by
  rw [abs_mul, abs_of_nonneg h0]
  exact (mul_le_of_le_one_right (abs_nonneg k) h1).trans hk

theorem floor?_column {q : Float} (hq : HasValue q t) (h0 : 0 ≤ t) (h1 : t ≤ 1) :
    80 + (floor? (699 * q + 0.001)).getD 0 = columnOf t := by
  have hlength : HasValue 699 699 := by exact_mod_cast hasValue_natCast (n := 699) (by norm_num)
  have hstretched := abs_stretched_le (k := 699) (by norm_num) h0 h1
  have hbound := abs_le.1 (abs_nearest_le (onGrid_pow 10) hstretched)
  have hsum : |nearest (699 * t) + nudge| ≤ 2 ^ 11 := by
    obtain ⟨hn0, hn1⟩ := nudge_bounds
    exact abs_le.2 ⟨by linarith, by linarith⟩
  have hvalue := (hlength.mul hq (abs_nearest_lt (by norm_num) hstretched)).add hasValue_nudge
    (abs_nearest_lt (by norm_num) hsum)
  rw [floor?_eq hvalue]
  rfl

theorem ceil?_row {q : Float} (hq : HasValue q t) (h0 : 0 ≤ t) (h1 : t ≤ 1) :
    539 + (ceil? (-484 * q - 0.001)).getD 0 = rowOf t := by
  have hlength : HasValue (-484) (-484) := by
    have := hasValue_natCast (n := 484) (by norm_num)
    exact HasValue.neg (by exact_mod_cast this)
  have hstretched := abs_stretched_le (k := -484) (by norm_num) h0 h1
  have hbound := abs_le.1 (abs_nearest_le (onGrid_pow 10) hstretched)
  have hsum : |nearest (-484 * t) - nudge| ≤ 2 ^ 11 := by
    obtain ⟨hn0, hn1⟩ := nudge_bounds
    exact abs_le.2 ⟨by linarith, by linarith⟩
  have hvalue := (hlength.mul hq (abs_nearest_lt (by norm_num) hstretched)).sub hasValue_nudge
    (abs_nearest_lt (by norm_num) hsum)
  rw [ceil?_eq hvalue]
  rfl

end

namespace Plane

variable {p : Plane} {x : Float} {m M a : ℝ}

/-- **The column of a coordinate** between the ends of the horizontal axis. -/
theorem column_eq (hx : HasValue x a) (hlo : HasValue p.xMin m)
    (hwidth : HasValue (p.xMax - p.xMin) (nearest (M - m))) (hspan : 0 < nearest (M - m))
    (hma : m ≤ a) (haM : a ≤ M) : p.column x = columnOf (portion m M a) :=
  floor?_column (hasValue_portion hx hlo hwidth hspan hma haM) (portion_nonneg hspan hma)
    (portion_le_one hspan haM)

/-- **The row of a coordinate** between the ends of the vertical axis. -/
theorem row_eq (hx : HasValue x a) (hlo : HasValue p.yMin m)
    (hheight : HasValue (p.yMax - p.yMin) (nearest (M - m))) (hspan : 0 < nearest (M - m))
    (hma : m ≤ a) (haM : a ≤ M) : p.row x = rowOf (portion m M a) :=
  ceil?_row (hasValue_portion hx hlo hheight hspan hma haM) (portion_nonneg hspan hma)
    (portion_le_one hspan haM)

/-- On an axis that is not finite every column is the first one. -/
theorem column_of_infinite (h : ¬ (p.xMax - p.xMin).isFinite = true) (x : Float) :
    p.column x = 80 := by
  unfold column
  by_cases hquotient : ((x - p.xMin) / (p.xMax - p.xMin)).isFinite = true
  · have hzero := hasValue_div_infinite h hquotient
    rw [floor?_column hzero le_rfl zero_le_one, columnOf_zero]
  · rw [floor?_of_not_isFinite fun hfin => hquotient (isFinite_of_mul (isFinite_of_add hfin).1).2]
    rfl

end Plane

end Campaign
