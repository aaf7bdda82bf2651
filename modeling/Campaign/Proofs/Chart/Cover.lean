import Campaign.Chart.Drawing
import Campaign.Proofs.Binary64.Sides
import Campaign.Proofs.Chart.Range

/-!
# The range covers the chart

A chart that can be drawn, by its validation, may have whiskers and a range that overflow. The range
still covers all that is drawn, as infinities are beyond everything. Both extremes of a layout start
at zero and move outwards, the headroom is positive because it is a tenth of at least one, and it is
added on the side that it is for. No step meets an infinity of the other side, so none of them ends
in not-a-number.

* `Covers`: a range with ends that may be infinite, around zero and a layout.

## Main statements

* `toward_whiskerEnd`: a whisker ends on its side of the value;
* `toward_reach`: the extremes of a layout;
* `covers_rangeOf`: the range of a layout.
-/

namespace Campaign

open Binary64
open Float.Model.UnpackedFloat (Sign)

/-- A bar whose base line is at zero. -/
theorem Plane.box_of_clamp {p : Plane} (h : clamp p.yMin p.yMax 0 = 0) (b : Placement) :
    p.box b = .spanning (p.column b.left) (p.row 0) (p.column b.right) (p.row b.value) := by
  rw [Plane.box, h]

namespace Chart

/-- A range that is not empty and covers zero, the bars and the ends of their whiskers. -/
structure Covers (range : Float × Float) (places : List Placement) : Prop where
  low_le : range.1 ≤ 0
  high_pos : 0 < range.2
  low_lt_high : range.1 < range.2
  value : ∀ p ∈ places, range.1 ≤ p.value ∧ p.value ≤ range.2
  whiskerLow : ∀ p ∈ places, range.1 ≤ p.whiskerLow ∧ p.whiskerLow ≤ range.2
  whiskerHigh : ∀ p ∈ places, range.1 ≤ p.whiskerHigh ∧ p.whiskerHigh ≤ range.2

/-! ### Whiskers -/

/-- **A whisker ends on its side of the value**, also where it overflows. -/
theorem toward_whiskerEnd (s : Sign) (width : Float) (slot : ℕ) {b : Bar}
    (h : checkBar b = .ok ()) :
    Toward s (place width slot b).value ((place width slot b).whiskerEnd s) := by
  obtain ⟨hvalue, herror, -⟩ := (checkBar_eq_ok_iff b).1 h
  have hv := hasValue_toReal hvalue
  have he := hasValue_toReal herror
  have hnonneg := nonneg_of_checkBar h
  cases s with
  | positive =>
    apply hv.roundsTo.toward (hv.roundsTo_add he)
    exact le_add_of_nonneg_right hnonneg
  | negative =>
    apply hv.roundsTo.toward (hv.roundsTo_sub he)
    exact neg_le_neg (sub_le_self _ hnonneg)

section

variable {places : List Placement} {s : Sign}

/-! ### Extremes -/

/-- **The extremes of a layout** are beyond zero and all whiskers. -/
theorem toward_reach (hplaces : ∀ p ∈ places, ∀ s, Toward s p.value (p.whiskerEnd s)) :
    Toward s 0 (reach s places) ∧ ∀ p ∈ places, Toward s (p.whiskerEnd s) (reach s places) := by
  have hextreme (p : Placement) (hp : p ∈ places) :=
    toward_extreme s (hplaces p hp s).isNaN.2 (hplaces p hp s).isNaN.1
  obtain ⟨hzero, hall⟩ := toward_foldl_extreme s hasValue_zero.isNaN
    fun p hp => (hextreme p hp).1.isNaN.2
  refine ⟨hzero, ?_⟩
  intro p hp
  exact (hextreme p hp).1.trans (hall p hp)

/-- There is some headroom, as the range spans at least one. -/
theorem headroom_pos (hhigh : 0 ≤ reach .positive places) (hlow : reach .negative places ≤ 0) :
    0 < headroom places := by
  obtain ⟨t, ht, ht0, -⟩ := hasValue_tenth
  have hopposite : Toward .positive 0 (-reach .negative places) :=
    Toward.neg (s := .negative) hlow
  have hspan : 0 ≤ reach .positive places - reach .negative places := by
    rw [Binary64.sub_eq_add_neg]
    exact zero_le_add hhigh hopposite
  have hone : 1 ≤ max (reach .positive places - reach .negative places) 1 :=
    (toward_extreme .positive (isNaN_right_of_le hspan) hasValue_one.isNaN).2
  have hscale : 1 * 0.1 ≤ headroom places := by
    apply (lifts_mul ht (by linarith)).le _ hone
    intro a b hab
    exact mul_le_mul_of_nonneg_right hab (by linarith)
  have htenth : (0 : Float) < 1 * 0.1 := by decide +kernel
  exact Binary64.lt_of_lt_of_le htenth hscale

/-! ### The range -/

theorem low_le (hlow : reach .negative places ≤ 0) (hroom : 0 < headroom places) :
    (rangeOf places).1 ≤ 0 ∧ (rangeOf places).1 ≤ reach .negative places := by
  rw [rangeOf_eq]
  dsimp only
  split_ifs with hneg
  · have hopposite : Toward .negative 0 (-headroom places) :=
      Toward.neg (s := .positive) (isLE_of_lt hroom)
    have hend : reach .negative places - headroom places ≤ reach .negative places := by
      rw [Binary64.sub_eq_add_neg]
      exact (Toward.add (s := .negative) hlow hopposite).1
    exact ⟨Binary64.le_trans hend hlow, hend⟩
  · -- nothing reaches below zero, and the range starts there
    rw [lt_iff_not_le (isNaN_of_le hlow) hasValue_zero.isNaN, not_not] at hneg
    exact ⟨le_self hasValue_zero.isNaN, hneg⟩

theorem le_high (hhigh : 0 ≤ reach .positive places) (hroom : 0 < headroom places) :
    0 < (rangeOf places).2 ∧ reach .positive places ≤ (rangeOf places).2 := by
  rw [rangeOf_eq]
  have hsum := Toward.add (s := .positive) hhigh (isLE_of_lt hroom)
  exact ⟨Binary64.lt_of_lt_of_le hroom hsum.2, hsum.1⟩

/-- **The range of a layout** covers it. -/
theorem covers_rangeOf (hplaces : ∀ p ∈ places, ∀ s, Toward s p.value (p.whiskerEnd s)) :
    Covers (rangeOf places) places := by
  obtain ⟨hhigh, hhighs⟩ := toward_reach (s := .positive) hplaces
  obtain ⟨hlow, hlows⟩ := toward_reach (s := .negative) hplaces
  have hroom := headroom_pos hhigh hlow
  obtain ⟨hbelow, hlowend⟩ := low_le hlow hroom
  obtain ⟨habove, hhighend⟩ := le_high hhigh hroom
  have hwhisker (p : Placement) (hp : p ∈ places) :
      p.whiskerLow ≤ p.value ∧ p.value ≤ p.whiskerHigh :=
    ⟨hplaces p hp .negative, hplaces p hp .positive⟩
  have hcover (p : Placement) (hp : p ∈ places) {y : Float} (hlow : p.whiskerLow ≤ y)
      (hhigh : y ≤ p.whiskerHigh) : (rangeOf places).1 ≤ y ∧ y ≤ (rangeOf places).2 :=
    ⟨Binary64.le_trans (Binary64.le_trans hlowend (hlows p hp)) hlow,
      Binary64.le_trans hhigh (Binary64.le_trans (hhighs p hp) hhighend)⟩
  refine
    { low_le := hbelow
      high_pos := habove
      low_lt_high := Binary64.lt_of_le_of_lt hbelow habove
      value := ?_
      whiskerLow := ?_
      whiskerHigh := ?_ }
  · intro p hp
    obtain ⟨hlow, hhigh⟩ := hwhisker p hp
    exact hcover p hp hlow hhigh
  · intro p hp
    obtain ⟨hlow, hhigh⟩ := hwhisker p hp
    exact hcover p hp (le_self (isNaN_of_le hlow)) (Binary64.le_trans hlow hhigh)
  · intro p hp
    obtain ⟨hlow, hhigh⟩ := hwhisker p hp
    exact hcover p hp (Binary64.le_trans hlow hhigh) (le_self (isNaN_right_of_le hhigh))

end

/-- The base line of a drawing is at zero. -/
theorem Covers.clamp_eq {range : Float × Float} {places : List Placement}
    (h : Covers range places) : clamp range.1 range.2 0 = 0 :=
  clamp_of_between h.low_le (isLE_of_lt h.high_pos)

/-! ### Charts that can be drawn -/

section

variable {c : Chart}

theorem validate_of_layout {places : List Placement} (h : c.layout = .ok places) :
    c.validate = .ok () ∧ places = c.placements := by
  unfold layout at h
  cases hvalid : c.validate with
  | error e =>
    rw [hvalid] at h
    cases h
  | ok _ =>
    rw [hvalid] at h
    exact ⟨rfl, (Except.ok.inj h).symm⟩

theorem covers_of_validate (h : c.validate = .ok ()) :
    Covers (rangeOf c.placements) c.placements := by
  apply covers_rangeOf
  intro p hp s
  obtain ⟨i, hi, rfl⟩ := mem_placements.1 hp
  apply toward_whiskerEnd
  exact ((validate_eq_ok_iff c).1 h).2.2 _ (List.getElem_mem hi)

end

end Chart

end Campaign
