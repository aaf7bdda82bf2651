import Campaign.Chart.Layout

/-!
# Drawings of charts

A drawing says which shapes and texts stand where, in pixels from the upper left corner.

* `Plane`: the part of the drawing that the axes span, and its units;
* `Chart.draw`: the drawing of a chart.
-/

namespace Campaign

/-- A text and the point that it is drawn at. -/
structure Caption where
  x : Int
  y : Int
  text : String
  deriving DecidableEq, Repr

/-- A rectangle by its upper left corner and its size. -/
structure Box where
  x : Int
  y : Int
  width : Int
  height : Int
  deriving DecidableEq, Repr

/-- A line between two points. -/
structure Segment where
  x₁ : Int
  y₁ : Int
  x₂ : Int
  y₂ : Int
  deriving DecidableEq, Repr

/-- The shapes and texts of a chart, each kind in the order of drawing. -/
structure Drawing where
  title : Caption
  yLabel : Caption
  xLabels : List Caption
  /-- The filled bars. -/
  bars : List Box
  outlines : List Box
  /-- The whiskers and their caps. -/
  segments : List Segment
  deriving DecidableEq, Repr

/-! ### Pixels -/

/-- The rectangle between two opposite corners. -/
def Box.spanning (x₁ y₁ x₂ y₂ : Int) : Box :=
  ⟨min x₁ x₂, min y₁ y₂, max x₁ x₂ - min x₁ x₂, max y₁ y₂ - min y₁ y₂⟩

/-- The ranges of the axes, which fill the same part of each drawing. -/
structure Plane where
  xMin : Float
  xMax : Float
  yMin : Float
  yMax : Float

namespace Plane

/-- The column of a horizontal coordinate. -/
def column (p : Plane) (x : Float) : Int :=
  80 + (Binary64.floor? (699 * ((x - p.xMin) / (p.xMax - p.xMin)) + 0.001)).getD 0

/-- The row of a vertical coordinate. -/
def row (p : Plane) (y : Float) : Int :=
  539 + (Binary64.ceil? (-484 * ((y - p.yMin) / (p.yMax - p.yMin)) - 0.001)).getD 0

/-- The line between two points. -/
def segment (p : Plane) (x₁ y₁ x₂ y₂ : Float) : Segment :=
  ⟨p.column x₁, p.row y₁, p.column x₂, p.row y₂⟩

/-- The rectangle of a bar, from the base line to its value. -/
def box (p : Plane) (b : Placement) : Box :=
  let base := Binary64.clamp p.yMin p.yMax 0
  .spanning (p.column b.left) (p.row base) (p.column b.right) (p.row b.value)

/-- The line from the low to the high end of an error. -/
def whisker (p : Plane) (b : Placement) : Segment :=
  p.segment b.center b.whiskerLow b.center b.whiskerHigh

/-- Half the width of a cap. -/
def capHalfWidth : Float := 0.08

/-- The lines across the two ends of an error. -/
def caps (p : Plane) (b : Placement) : List Segment :=
  [b.whiskerLow, b.whiskerHigh].map fun y =>
    p.segment (b.center - capHalfWidth) y (b.center + capHalfWidth) y

/-- The label under a bar, if it has one. -/
def xLabel? (p : Plane) (b : Placement) : Option Caption :=
  if b.label.isEmpty then none else some ⟨p.column b.center, 550, b.label⟩

end Plane

namespace Chart

/-- The plane for as many bars and a vertical range. -/
def plane (bars : Nat) (range : Float × Float) : Plane :=
  ⟨-0.5, bars.toFloat - 0.5, range.1, range.2⟩

/-- The drawing of bars that have their places. -/
def drawPlaces (c : Chart) (places : List Placement) : Drawing :=
  let p := plane places.length (rangeOf places)
  { title := ⟨400, 25, c.title⟩
    yLabel := ⟨20, 297, c.yLabel⟩
    xLabels := places.filterMap p.xLabel?
    bars := places.map p.box
    outlines := places.map p.box
    segments := places.map p.whisker ++ places.flatMap p.caps }

/-- The drawing of a chart. -/
def draw (c : Chart) : Except Error Drawing := do return c.drawPlaces (← c.layout)

end Chart

end Campaign
