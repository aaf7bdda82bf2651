import Campaign.Chart.Basic

/-!
# The layout of a chart

Bars stand in slots around the whole numbers of the horizontal axis.

* `Chart.layout`: where the parts of each bar are;
* `Chart.yRange`: the part of the vertical axis that is drawn.
-/

namespace Campaign

/-- Where the parts of a bar are, in the units of the axes. -/
structure Placement where
  label : String
  /-- The middle of the slot. -/
  center : Float
  left : Float
  right : Float
  value : Float
  whiskerLow : Float
  whiskerHigh : Float
  deriving DecidableEq

namespace Chart

/-- Places a bar in a slot. -/
def place (width : Float) (slot : Nat) (b : Bar) : Placement :=
  let center := slot.toFloat
  let half := width / 2
  { label := b.label, center, left := center - half, right := center + half, value := b.value,
    whiskerLow := b.value - b.error, whiskerHigh := b.value + b.error }

/-- The places of all bars, in order. -/
def placements (c : Chart) : List Placement := c.bars.mapIdx (place c.barWidth)

/-- The places of all bars of a chart that can be drawn. -/
def layout (c : Chart) : Except Error (List Placement) := do
  c.validate
  return c.placements

/-- The vertical range of bars: it covers zero, the bars and their whiskers, with a tenth of its
span, or of one if that is more, to spare above and, where it reaches below zero, below. -/
def rangeOf (places : List Placement) : Float × Float :=
  let low := places.foldl (fun low p => min low (min p.whiskerLow p.value)) 0
  let high := places.foldl (fun high p => max high (max p.whiskerHigh p.value)) 0
  let span := max (high - low) 1
  (if low < 0 then low - span * 0.1 else 0, high + span * 0.1)

/-- The vertical range of a chart that can be drawn. -/
def yRange (c : Chart) : Except Error (Float × Float) := do return rangeOf (← c.layout)

end Chart

end Campaign
