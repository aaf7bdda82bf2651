import Campaign.Proofs.Chart.Cover
import Campaign.Proofs.Guarded.Basic

/-!
# No chart leads to a fault

A drawing clamps its base line to the vertical range, and there is nothing to clamp to if the range
is empty or has not-a-number for an end. The range of a chart that can be drawn covers zero, also
where it overflows, so the base line is at zero; all other charts end in an error before that.

* `draw`: the guarded drawing of a chart.

## Main statements

* `follows_draw`: drawing a chart runs into no fault;
* `Chart.exists_covers`: the range and the base line of a chart that can be drawn.
-/

namespace Campaign

open Binary64

namespace Guarded

/-- The drawing of a chart, with its base line clamped once for all bars. -/
def draw (c : Chart) : Run Chart.Error Drawing := do
  let places ← ofExcept c.layout
  let range ← ofExcept c.yRange
  let p := Chart.plane places.length range
  let base ← step (within p.yMin p.yMax 0)
  let boxes := places.map fun b =>
    Box.spanning (p.column b.left) (p.row base) (p.column b.right) (p.row b.value)
  return {
    title := ⟨400, 25, c.title⟩
    yLabel := ⟨20, 297, c.yLabel⟩
    xLabels := places.filterMap p.xLabel?
    bars := boxes
    outlines := boxes
    segments := places.map p.whisker ++ places.flatMap p.caps }

/-- The base line of a range around zero. -/
theorem within_of_covers {range : Float × Float} {places : List Placement}
    (h : Chart.Covers range places) : within range.1 range.2 0 = .ok 0 := by
  have hrange : range.1 ≤ range.2 := isLE_of_lt h.low_lt_high
  rw [within, if_pos hrange, h.clamp_eq]

/-- **Drawing a chart runs into no fault**, whatever the chart is. -/
theorem follows_draw (c : Chart) : Follows (draw c) c.draw := by
  unfold draw Chart.draw
  refine (follows_ofExcept c.layout).bind ?_
  intro places hlayout
  obtain ⟨hvalid, rfl⟩ := Chart.validate_of_layout hlayout
  have hcovers := Chart.covers_of_validate hvalid
  rw [Chart.yRange_of_validate hvalid]
  refine Follows.step (within_of_covers hcovers) ?_
  refine (follows_pure _).of_eq ?_
  -- all boxes of the plain drawing have the same base line
  have hclamp : clamp (Chart.plane c.placements.length (Chart.rangeOf c.placements)).yMin
      (Chart.plane c.placements.length (Chart.rangeOf c.placements)).yMax 0 = 0 :=
    hcovers.clamp_eq
  have hboxes := funext (Plane.box_of_clamp hclamp)
  simp only [Chart.drawPlaces, hboxes]
  rfl

end Guarded

namespace Chart

/-- **The range of a chart that can be drawn** is not empty, and covers zero, all bars and all
whiskers, whether or not it overflows. So the base line of the drawing is clamped without a fault,
and it is at zero. -/
theorem exists_covers {c : Chart} (hvalid : c.validate = .ok ()) :
    ∃ places range, c.layout = .ok places ∧ c.yRange = .ok range ∧ Covers range places ∧
      Guarded.within range.1 range.2 0 = .ok 0 ∧ (Guarded.draw c).run = .ok c.draw := by
  have hcovers := covers_of_validate hvalid
  exact ⟨c.placements, rangeOf c.placements, layout_of_validate hvalid, yRange_of_validate hvalid,
    hcovers, Guarded.within_of_covers hcovers, Guarded.follows_draw c⟩

/-- A chart that overflows on both sides. -/
def boundless : Chart where
  title := "boundless"
  bars := [⟨"up", 1e308, 1e308⟩, ⟨"flat", 0, 0⟩, ⟨"down", -1e308, 1e308⟩]

theorem exists_covers_of_boundless :
    boundless.validate = .ok () ∧
      ∃ places range, boundless.layout = .ok places ∧ boundless.yRange = .ok range ∧
        range = (-(1 / 0), 1 / 0) ∧ Covers range places ∧
        Guarded.within range.1 range.2 0 = .ok 0 := by
  have hvalid : boundless.validate = .ok () := by decide +kernel
  obtain ⟨places, range, hlayout, hrange, hcovers, hbase, -⟩ := exists_covers hvalid
  have hinfinite : boundless.yRange = .ok (-(1 / 0), 1 / 0) := by decide +kernel
  exact ⟨hvalid, places, range, hlayout, hrange, Except.ok.inj (hrange.symm.trans hinfinite),
    hcovers, hbase⟩

end Chart

end Campaign
