import Campaign.Chart.Layout
import Campaign.Proofs.Binary64.Extremes
import Campaign.Proofs.Experiment.RoundTrip

/-!
# When the range of a chart is finite

Validation looks at the value and at the error of a bar, not at the ends of its whisker, and not at
the range with its headroom. Each of them may overflow, but only to its own side: a whisker reaches
up to an infinity or down to one. So an infinity is never lost on the way to the range, and all
numbers of a layout are finite as soon as the two ends of the range have a finite difference.

* `Placement.whiskerEnd`, `Chart.reach`: the ends of a whisker and the extremes of a layout, by sign;
* `Chart.IsFrame`: a range with numbers for ends that covers a layout;
* `Chart.Within`: numbers that are far enough from overflow;
* `Chart.IsUsable`: a layout and a range that a drawing can be scaled by;
* `Chart.tall`: a chart that can be drawn, by its validation, with an infinite whisker.

## Main statements

* `exists_isFrame`: a range whose ends have a finite difference;
* `isFinite_range_of_le`: a range that is far enough from overflow;
* `isUsable_iff`: usable layouts.
-/

namespace Campaign

open Binary64
open Float.Model.UnpackedFloat (Sign)

/-! ### Whiskers -/

/-- The upper end of a whisker for the plus sign, the lower end for the minus sign. -/
def Placement.whiskerEnd (p : Placement) : Sign → Float
  | .positive => p.whiskerHigh
  | .negative => p.whiskerLow

/-- What is known of the numbers of a bar before it is known whether they overflow. -/
structure Placement.IsSound (p : Placement) : Prop where
  value : p.value.isFinite = true
  whiskerEnd : ∀ s, FiniteOr s (p.whiskerEnd s)
  beyond : ∀ s, (p.whiskerEnd s).isFinite = true →
    signed s (toReal p.value) ≤ signed s (toReal (p.whiskerEnd s))

/-- A bar whose numbers lie in an interval. -/
structure Placement.IsBetween (p : Placement) (lo hi : ℝ) : Prop where
  value : p.value.isFinite = true
  whiskerLow : p.whiskerLow.isFinite = true
  whiskerHigh : p.whiskerHigh.isFinite = true
  le_low : lo ≤ toReal p.whiskerLow
  low_le : toReal p.whiskerLow ≤ toReal p.value
  le_high : toReal p.value ≤ toReal p.whiskerHigh
  high_le : toReal p.whiskerHigh ≤ hi

namespace Chart

theorem nonneg_of_checkBar {b : Bar} (h : checkBar b = .ok ()) : 0 ≤ toReal b.error := by
  obtain ⟨-, herror, hneg⟩ := (checkBar_eq_ok_iff b).1 h
  rwa [(hasValue_toReal herror).lt_iff hasValue_zero, not_lt] at hneg

theorem isSound_place (width : Float) (slot : ℕ) {b : Bar} (h : checkBar b = .ok ()) :
    (place width slot b).IsSound := by
  obtain ⟨hvalue, herror, -⟩ := (checkBar_eq_ok_iff b).1 h
  have hv := hasValue_toReal hvalue
  have he := hasValue_toReal herror
  have hnonneg := nonneg_of_checkBar h
  refine ⟨hvalue, fun s => ?_, fun s hfin => ?_⟩
  · cases s with
    | positive => exact hv.finiteOr_add he hnonneg
    | negative => exact hv.finiteOr_sub he (neg_nonpos.2 hnonneg)
  · cases s with
    | positive =>
      change _ ≤ toReal (b.value + b.error)
      rw [(hv.add_of_isFinite he hfin).toReal_eq]
      exact le_nearest hv.onGrid (le_add_of_nonneg_right hnonneg)
    | negative =>
      change _ ≤ -toReal (b.value - b.error)
      rw [(hv.sub_of_isFinite he hfin).toReal_eq]
      exact neg_le_neg (nearest_le hv.onGrid (sub_le_self _ hnonneg))

/-! ### Layouts -/

section

variable {c : Chart} {p : Placement}

theorem mem_placements : p ∈ c.placements ↔
    ∃ i, ∃ h : i < c.bars.length, place c.barWidth i c.bars[i] = p := by
  rw [placements, List.mem_mapIdx]

theorem layout_of_validate (h : c.validate = .ok ()) : c.layout = .ok c.placements := by
  rw [layout, h]
  rfl

theorem yRange_of_validate (h : c.validate = .ok ()) : c.yRange = .ok (rangeOf c.placements) := by
  rw [yRange, layout_of_validate h]
  rfl

theorem isSound_of_mem (h : c.validate = .ok ()) (hp : p ∈ c.placements) : p.IsSound := by
  obtain ⟨i, hi, rfl⟩ := mem_placements.1 hp
  exact isSound_place _ _ (((validate_eq_ok_iff c).1 h).2.2 _ (List.getElem_mem hi))

end

/-- The extreme of a layout: zero, the bars and their whiskers. -/
def reach (s : Sign) (places : List Placement) : Float :=
  places.foldl (fun m p => extreme s m (extreme s (p.whiskerEnd s) p.value)) 0

/-- What the range has to spare. -/
def headroom (places : List Placement) : Float :=
  max (reach .positive places - reach .negative places) 1 * 0.1

theorem rangeOf_eq (places : List Placement) :
    rangeOf places =
      ⟨if reach .negative places < 0 then reach .negative places - headroom places else 0,
        reach .positive places + headroom places⟩ := rfl

section

variable {places : List Placement} {s : Sign}

theorem finiteOr_reach (hplaces : ∀ p ∈ places, p.IsSound) : FiniteOr s (reach s places) :=
  hasValue_zero.finiteOr.foldl_extreme fun p hp =>
    ((hplaces p hp).whiskerEnd s).extreme (hasValue_toReal (hplaces p hp).value).finiteOr

/-- A finite extreme is beyond all whiskers. -/
theorem exists_hasValue_reach (hplaces : ∀ p ∈ places, p.IsSound)
    (h : (reach s places).isFinite = true) :
    ∃ m, HasValue (reach s places) m ∧ 0 ≤ signed s m ∧
      ∀ p ∈ places, (p.whiskerEnd s).isFinite = true ∧
        signed s (toReal (p.whiskerEnd s)) ≤ signed s m := by
  have hextreme : ∀ p ∈ places, FiniteOr s (extreme s (p.whiskerEnd s) p.value) := fun p hp =>
    ((hplaces p hp).whiskerEnd s).extreme (hasValue_toReal (hplaces p hp).value).finiteOr
  obtain ⟨m, hm, hzero, hall⟩ := exists_hasValue_foldl_extreme hasValue_zero hextreme h
  refine ⟨m, hm, ?_, fun p hp => ?_⟩
  · cases s <;> simpa [signed] using hzero
  · obtain ⟨b, hb, hbm⟩ := hall p hp
    have hvalue := hasValue_toReal (hplaces p hp).value
    obtain ⟨hend, -⟩ := isFinite_of_extreme ((hplaces p hp).whiskerEnd s) hvalue.finiteOr hb.isFinite
    obtain ⟨b', hb', -, hle, -⟩ := (hasValue_toReal hend).extreme s hvalue
    obtain rfl : b = b' := hb.toReal_eq.symm.trans hb'.toReal_eq
    exact ⟨hend, hle.trans hbm⟩

/-! ### The range -/

/-- A range with numbers for ends that covers zero and a layout. -/
structure IsFrame (places : List Placement) (range : Float × Float) (lo hi : ℝ) : Prop where
  low : HasValue range.1 lo
  high : HasValue range.2 hi
  span : HasValue (range.2 - range.1) (nearest (hi - lo))
  low_nonpos : lo ≤ 0
  high_pos : 1 / 16 ≤ hi
  between : ∀ p ∈ places, p.IsBetween lo hi

theorem hasValue_tenth : ∃ t, HasValue 0.1 t ∧ 1 / 16 ≤ t ∧ t ≤ 1 / 8 := by
  refine ⟨_, hasValue_toReal (by decide), ?_, ?_⟩ <;>
    · rw [toReal_of_value (s := false) (m := 7205759403792794) (q := -56) (by decide)]
      norm_num

theorem onGrid_sixteenth : OnGrid (1 / 16) := by
  have := onGrid_zpow (e := -4) (by norm_num)
  norm_num at this ⊢
  exact this

/-- The headroom, from the numbers of the extremes. -/
theorem exists_hasValue_headroom {h l : ℝ} (hh : HasValue (reach .positive places) h)
    (hl : HasValue (reach .negative places) l) (hl0 : l ≤ 0)
    (hfin : (headroom places).isFinite = true) :
    ∃ t, HasValue (headroom places) t ∧ 1 / 16 ≤ t := by
  obtain ⟨t, ht, hlow, -⟩ := hasValue_tenth
  have hdiff : FiniteOr .positive (reach .positive places - reach .negative places) :=
    hh.finiteOr_sub hl hl0
  have hmax := (isFinite_of_mul hfin).1
  have hdiff := hasValue_toReal
    (isFinite_of_extreme (s := .positive) hdiff hasValue_one.finiteOr hmax).1
  have hspan := hdiff.max hasValue_one
  refine ⟨_, hspan.mul_of_isFinite ht hfin, le_nearest onGrid_sixteenth ?_⟩
  have hone := le_max_right (toReal (reach .positive places - reach .negative places)) 1
  nlinarith

/-- **A range whose ends have a finite difference** has numbers for its ends and covers all bars and
whiskers. -/
theorem exists_isFrame (hplaces : ∀ p ∈ places, p.IsSound)
    (hfin : ((rangeOf places).2 - (rangeOf places).1).isFinite = true) :
    ∃ lo hi, IsFrame places (rangeOf places) lo hi := by
  have hrange := (rangeOf_eq places).symm
  generalize rangeOf places = range at *
  obtain ⟨low, high⟩ := range
  obtain ⟨hlow, hhigh⟩ := Prod.mk.inj hrange
  obtain ⟨hhighfin, hlowfin⟩ := isFinite_of_sub hfin
  rw [← hhigh] at hhighfin
  obtain ⟨hreach, hroom⟩ := isFinite_of_add hhighfin
  obtain ⟨h, hh, hh0, hupper⟩ := exists_hasValue_reach hplaces hreach
  have hreach' : (reach .negative places).isFinite = true := by
    rcases finiteOr_reach (s := .negative) hplaces with hfin | hinfinite
    · exact hfin
    · -- minus infinity is below zero, so it would be the lower end
      have hneg : reach .negative places < 0 := by
        rw [lt_eq_compare, hinfinite]
        decide
      rw [← hlow, if_pos hneg] at hlowfin
      exact (isFinite_of_sub hlowfin).1
  obtain ⟨l, hl, hl0, hlower⟩ := exists_hasValue_reach hplaces hreach'
  replace hl0 : l ≤ 0 := by simpa [signed] using hl0
  obtain ⟨t, ht, ht0⟩ := exists_hasValue_headroom hh hl hl0 hroom
  have hhi : HasValue high (nearest (h + t)) := hhigh ▸ hh.add_of_isFinite ht hhighfin
  have hlo : ∃ lo, HasValue low lo ∧ lo ≤ l := by
    rw [← hlow] at hlowfin ⊢
    split_ifs at hlowfin ⊢ with hneg
    · exact ⟨_, hl.sub_of_isFinite ht hlowfin, nearest_le hl.onGrid (by linarith)⟩
    · rw [hl.lt_iff hasValue_zero, not_lt] at hneg
      exact ⟨0, hasValue_zero, hneg⟩
  obtain ⟨lo, hlo, hlol⟩ := hlo
  have hhhi : h ≤ nearest (h + t) := le_nearest hh.onGrid (by linarith)
  have hsixteenth : 1 / 16 ≤ nearest (h + t) :=
    le_nearest onGrid_sixteenth (by simp only [signed] at hh0; linarith)
  refine ⟨lo, nearest (h + t), hlo, hhi, hhi.sub_of_isFinite hlo hfin, hlol.trans hl0, hsixteenth,
    fun p hp => ?_⟩
  obtain ⟨hhighfin, hhighle⟩ := hupper p hp
  obtain ⟨hlowfin, hlowle⟩ := hlower p hp
  have hsound := hplaces p hp
  exact
    { value := hsound.value
      whiskerLow := hlowfin
      whiskerHigh := hhighfin
      le_low := hlol.trans (neg_le_neg_iff.1 hlowle)
      low_le := neg_le_neg_iff.1 (hsound.beyond .negative hlowfin)
      le_high := hsound.beyond .positive hhighfin
      high_le := hhighle.trans hhhi }

end

/-! ### Far from overflow -/

/-- A number of at most so many units of `2^1020`. -/
def Within (k : ℕ) (x : Float) : Prop := ∃ r, HasValue x r ∧ |r| ≤ (k * 2 ^ 1020 : ℕ)

section

variable {j k : ℕ} {x y : Float}

theorem units_eq (k : ℕ) : ((k * 2 ^ 1020 : ℕ) : ℝ) = k * 2 ^ 1020 := by
  rw [Nat.cast_mul, Nat.cast_pow, Nat.cast_ofNat]

theorem onGrid_units (hk : k < 16) : OnGrid (k * 2 ^ 1020 : ℕ) :=
  ⟨k, 1020, by rw [Nat.abs_cast]; omega, by norm_num, by
    rw [units_eq, Int.cast_natCast]
    exact congrArg _ (zpow_natCast 2 1020).symm⟩

theorem units_lt (hk : k < 16) : ((k * 2 ^ 1020 : ℕ) : ℝ) < 2 ^ 1024 := by
  rw [units_eq, show (1024 : ℕ) = 4 + 1020 from rfl, pow_add]
  refine mul_lt_mul_of_pos_right ?_ (by positivity)
  exact_mod_cast hk

/-- A result that was not too large before it was rounded. -/
theorem within_of_nearest {r : ℝ} (hx : |nearest r| < 2 ^ 1024 → HasValue x (nearest r))
    (hk : k < 16) (hr : |r| ≤ (k * 2 ^ 1020 : ℕ)) : Within k x := by
  have hrounded := abs_nearest_le (onGrid_units hk) hr
  exact ⟨nearest r, hx (hrounded.trans_lt (units_lt hk)), hrounded⟩

theorem within_zero (k : ℕ) : Within k 0 := by
  refine ⟨0, hasValue_zero, ?_⟩
  rw [abs_zero]
  exact Nat.cast_nonneg _

theorem Within.add (hx : Within j x) (hy : Within k y) (hjk : j + k < 16) :
    Within (j + k) (x + y) := by
  obtain ⟨a, ha, haj⟩ := hx
  obtain ⟨b, hb, hbk⟩ := hy
  refine within_of_nearest (ha.add hb) hjk ((abs_add_le a b).trans ?_)
  rw [Nat.add_mul, Nat.cast_add]
  exact add_le_add haj hbk

theorem Within.sub (hx : Within j x) (hy : Within k y) (hjk : j + k < 16) :
    Within (j + k) (x - y) := by
  obtain ⟨b, hb, hbk⟩ := hy
  rw [Binary64.sub_eq_add_neg]
  exact hx.add ⟨-b, hb.neg, by rwa [abs_neg]⟩ hjk

/-- A tenth of what is at least one. -/
theorem Within.tenth (hx : Within 8 x) : Within 1 (max x 1 * 0.1) := by
  obtain ⟨a, ha, hak⟩ := hx
  obtain ⟨t, ht, ht0, ht1⟩ := hasValue_tenth
  have hunit : (1 : ℝ) ≤ 2 ^ 1020 := one_le_pow₀ one_le_two
  refine within_of_nearest ((ha.max hasValue_one).mul ht) (by norm_num) ?_
  rw [units_eq] at hak ⊢
  generalize (2 : ℝ) ^ 1020 = u at *
  push_cast at hak ⊢
  have hmax : max a 1 ≤ 8 * u := max_le (le_of_abs_le hak) (by linarith)
  have hone : 1 ≤ max a 1 := le_max_right a 1
  rw [abs_of_nonneg (by nlinarith)]
  nlinarith

end

section

variable {places : List Placement} {c : Chart}

/-- Extremes of four units leave room for the headroom on both sides. -/
theorem isFinite_range_of_within (hreach : ∀ s, Within 4 (reach s places)) :
    ((rangeOf places).2 - (rangeOf places).1).isFinite = true := by
  have hroom : Within 1 (headroom places) :=
    ((hreach .positive).sub (hreach .negative) (by norm_num)).tenth
  have hhigh : Within (4 + 1) (reach .positive places + headroom places) :=
    (hreach .positive).add hroom (by norm_num)
  have hlow : Within (4 + 1) (if reach .negative places < 0 then
      reach .negative places - headroom places else 0) := by
    split_ifs
    · exact (hreach .negative).sub hroom (by norm_num)
    · exact within_zero _
  obtain ⟨r, hr, -⟩ := hhigh.sub hlow (by norm_num)
  rw [rangeOf_eq]
  exact hr.isFinite

theorem within_reach (s : Sign) {k : ℕ}
    (hplaces : ∀ p ∈ places, Within k (p.whiskerEnd s) ∧ Within k p.value) :
    Within k (reach s places) := by
  obtain ⟨z, hz, hzk⟩ := within_zero k
  refine exists_abs_foldl_extreme_le s hz hzk fun p hp => ?_
  obtain ⟨⟨a, ha, hak⟩, ⟨b, hb, hbk⟩⟩ := hplaces p hp
  obtain ⟨m, hm, hchoice, -⟩ := ha.extreme s hb
  refine ⟨m, hm, ?_⟩
  rcases hchoice with rfl | rfl
  · exact hak
  · exact hbk

/-- **Numbers far enough from overflow** leave the difference of the ends of the range finite. -/
theorem isFinite_range_of_le (hvalid : c.validate = .ok ())
    (hle : ∀ b ∈ c.bars, |toReal b.value| + toReal b.error ≤ 2 ^ 1022) :
    ((rangeOf c.placements).2 - (rangeOf c.placements).1).isFinite = true := by
  have hunits : (2 : ℝ) ^ 1022 = (4 * 2 ^ 1020 : ℕ) := by
    rw [units_eq, show (1022 : ℕ) = 2 + 1020 from rfl, pow_add]
    norm_num
  rw [hunits] at hle
  refine isFinite_range_of_within fun s => within_reach s fun p hp => ?_
  obtain ⟨i, hi, rfl⟩ := mem_placements.1 hp
  have hmem := List.getElem_mem hi
  generalize c.bars[i] = b at hmem ⊢
  have hbar := ((validate_eq_ok_iff c).1 hvalid).2.2 b hmem
  obtain ⟨hvalue, herror, -⟩ := (checkBar_eq_ok_iff b).1 hbar
  have hv := hasValue_toReal hvalue
  have he := hasValue_toReal herror
  have hnonneg := nonneg_of_checkBar hbar
  have hbound := hle b hmem
  constructor
  · have habs : |toReal b.error| = toReal b.error := abs_of_nonneg hnonneg
    cases s with
    | positive =>
      refine within_of_nearest (hv.add he) (by norm_num) ((abs_add_le _ _).trans ?_)
      rwa [habs]
    | negative =>
      refine within_of_nearest (hv.sub he) (by norm_num) ((abs_sub _ _).trans ?_)
      rwa [habs]
  · exact ⟨_, hv, (le_add_of_nonneg_right hnonneg).trans hbound⟩

end

/-! ### Columns -/

section

variable {c : Chart}

/-- Half the width of a bar is at most half a slot. -/
theorem exists_hasValue_half (h : c.validate = .ok ()) :
    ∃ r, HasValue (c.barWidth / 2) r ∧ 0 ≤ r ∧ r ≤ 1 / 2 := by
  obtain ⟨-, ⟨h0, h1⟩, -⟩ := (validate_eq_ok_iff c).1 h
  have hw := hasValue_toReal (isFinite_of_unit (isLE_of_lt h0) h1)
  rw [hasValue_zero.lt_iff hw] at h0
  rw [hw.le_iff hasValue_one] at h1
  have hhalf : OnGrid (1 / 2) := hasValue_half.onGrid
  refine ⟨_, hw.div_of_one_le hasValue_two one_le_two, nearest_nonneg (by positivity),
    nearest_le hhalf (by linarith)⟩

/-- The columns of a bar are numbers as long as its slot is the index of a list. -/
theorem isFinite_columns (h : c.validate = .ok ()) (hsize : c.bars.length < 2 ^ 64)
    {p : Placement} (hp : p ∈ c.placements) :
    p.left.isFinite = true ∧ p.center.isFinite = true ∧ p.right.isFinite = true := by
  obtain ⟨i, hi, rfl⟩ := mem_placements.1 hp
  obtain ⟨r, hr, hr0, hr1⟩ := exists_hasValue_half h
  have hslot : |(i : ℝ)| ≤ 2 ^ 64 := by
    rw [Nat.abs_cast]
    exact_mod_cast (hi.trans hsize).le
  have hcenter := hasValue_natCast_nearest (abs_nearest_lt (by norm_num) hslot)
  have hcenterle := abs_le.1 (abs_nearest_le (onGrid_pow 64) hslot)
  have hleft : |nearest i - r| ≤ 2 ^ 65 := abs_le.2 ⟨by linarith, by linarith⟩
  have hright : |nearest i + r| ≤ 2 ^ 65 := abs_le.2 ⟨by linarith, by linarith⟩
  exact ⟨(hcenter.sub hr (abs_nearest_lt (by norm_num) hleft)).isFinite, hcenter.isFinite,
    (hcenter.add hr (abs_nearest_lt (by norm_num) hright)).isFinite⟩

end

/-! ### Usable layouts -/

/-- A layout and a range that a drawing can be scaled by. -/
structure IsUsable (places : List Placement) (range : Float × Float) : Prop where
  columns : ∀ p ∈ places,
    p.left.isFinite = true ∧ p.center.isFinite = true ∧ p.right.isFinite = true
  rows : ∀ p ∈ places,
    p.value.isFinite = true ∧ p.whiskerLow.isFinite = true ∧ p.whiskerHigh.isFinite = true
  bounds : range.1.isFinite = true ∧ range.2.isFinite = true
  span : (range.2 - range.1).isFinite = true ∧ 0 < range.2 - range.1

theorem IsFrame.span_pos {places : List Placement} {range : Float × Float} {lo hi : ℝ}
    (h : IsFrame places range lo hi) : 0 < nearest (hi - lo) := by
  have hsixteenth : 1 / 16 ≤ nearest (hi - lo) :=
    le_nearest onGrid_sixteenth (by linarith [h.low_nonpos, h.high_pos])
  linarith

/-- **A chart that can be drawn, by its validation,** has a layout and a range. Its columns and its
values are numbers. All the rest is exactly if the ends of the range have a finite difference, and
that is so if no bar reaches beyond `2^1022`. -/
theorem isUsable_iff {c : Chart} (hvalid : c.validate = .ok ()) (hsize : c.bars.length < 2 ^ 64) :
    ∃ places range, c.layout = .ok places ∧ c.yRange = .ok range ∧
      (∀ p ∈ places, (p.left.isFinite = true ∧ p.center.isFinite = true ∧
        p.right.isFinite = true) ∧ p.value.isFinite = true) ∧
      (IsUsable places range ↔ (range.2 - range.1).isFinite = true) ∧
      ((∀ b ∈ c.bars, |toReal b.value| + toReal b.error ≤ 2 ^ 1022) →
        IsUsable places range) := by
  have hsound : ∀ p ∈ c.placements, p.IsSound := fun p hp => isSound_of_mem hvalid hp
  have husable : IsUsable c.placements (rangeOf c.placements) ↔
      ((rangeOf c.placements).2 - (rangeOf c.placements).1).isFinite = true := by
    refine ⟨fun h => h.span.1, fun hfin => ?_⟩
    obtain ⟨lo, hi, hframe⟩ := exists_isFrame hsound hfin
    refine
      { columns := fun p hp => isFinite_columns hvalid hsize hp
        rows := fun p hp => ?_
        bounds := ⟨hframe.low.isFinite, hframe.high.isFinite⟩
        span := ⟨hfin, (hasValue_zero.lt_iff hframe.span).2 hframe.span_pos⟩ }
    obtain ⟨hvalue, hlow, hhigh, -⟩ := hframe.between p hp
    exact ⟨hvalue, hlow, hhigh⟩
  refine ⟨c.placements, rangeOf c.placements, layout_of_validate hvalid, yRange_of_validate hvalid,
    fun p hp => ⟨isFinite_columns hvalid hsize hp, (hsound p hp).value⟩, husable, fun hle => ?_⟩
  exact husable.2 (isFinite_range_of_le hvalid hle)

/-- A chart with one bar of height one. -/
def modest : Chart where
  title := "modest"
  bars := [⟨"one", 1, 0.5⟩]

theorem isUsable_iff_of_modest :
    modest.validate = .ok () ∧ modest.bars.length < 2 ^ 64 ∧
      ∃ places range, modest.layout = .ok places ∧ modest.yRange = .ok range ∧
        IsUsable places range := by
  have hvalid : modest.validate = .ok () := by decide +kernel
  have hsize : modest.bars.length < 2 ^ 64 := by decide
  obtain ⟨places, range, hlayout, hrange, -, hiff, -⟩ := isUsable_iff hvalid hsize
  refine ⟨hvalid, hsize, places, range, hlayout, hrange, hiff.2 ?_⟩
  have hfin : modest.yRange.map (fun range => (range.2 - range.1).isFinite) = .ok true := by
    decide +kernel
  rw [hrange] at hfin
  exact Except.ok.inj hfin

/-- A chart with a value and an error that overflow together. -/
def tall : Chart where
  title := "tall"
  bars := [⟨"one", 1e308, 1e308⟩]

/-- The chart can be drawn, by its validation, but neither its whisker nor its range is finite. -/
theorem not_isUsable_of_tall :
    ¬ ∀ c : Chart, c.validate = .ok () → ∃ places range, c.layout = .ok places ∧
      c.yRange = .ok range ∧ IsUsable places range := by
  intro h
  obtain ⟨places, range, -, hrange, husable⟩ := h tall (by decide +kernel)
  have hfin : tall.yRange.map (fun range => range.2.isFinite) = .ok false := by decide +kernel
  rw [hrange] at hfin
  exact Bool.false_ne_true ((Except.ok.inj hfin).symm.trans husable.bounds.2)

end Chart

end Campaign
