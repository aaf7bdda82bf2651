import Campaign.Decimal.Layout

/-!
# Bar charts

A chart is a titled list of bars, each with a symmetric error.

* `Chart.bar`, `Chart.ofColumns`: making charts;
* `Chart.validate`: the first fault that keeps a chart from being drawn.
-/

namespace Campaign

/-- One bar of a chart. -/
structure Bar where
  label : String
  value : Float
  /-- How far the whisker reaches on either side of the value. -/
  error : Float
  deriving DecidableEq

/-- A bar chart. -/
structure Chart where
  title : String
  /-- The text beside the vertical axis. -/
  yLabel : String := ""
  /-- The width of a bar as a part of its slot. -/
  barWidth : Float := 0.6
  bars : List Bar := []
  deriving DecidableEq

namespace Chart

/-- Why a chart cannot be drawn. -/
inductive Error where
  /-- Columns of different lengths. -/
  | columns (labels values errors : Nat)
  | noBars
  | barWidth (width : Float)
  | nonFiniteValue (label : String)
  /-- An error that is negative, infinite or not a number. -/
  | invalidError (label : String) (error : Float)
  deriving DecidableEq

namespace Error

/-- What is wrong with the data. -/
def reason : Error → String
  | columns labels values errors =>
    String.join ["labels (", toString labels, "), values (", toString values, ") and errors (",
      toString errors, ") must have the same length"]
  | noBars => "chart needs at least one bar"
  | barWidth width =>
    String.join ["bar width ", Decimal.Style.plain.render width, " is outside (0, 1]"]
  | nonFiniteValue label => String.join ["bar '", label, "' has a non-finite value"]
  | invalidError label error =>
    String.join ["bar '", label, "' has invalid error ", Decimal.Style.plain.render error]

/-- The text of an error. -/
def message (e : Error) : String := String.join ["Invalid data: ", e.reason]

end Error

/-! ### Making charts -/

/-- The chart with one more bar at the end. -/
def bar (c : Chart) (label : String) (value error : Float) : Chart :=
  { c with bars := c.bars ++ [⟨label, value, error⟩] }

/-- The chart of columns that have to be of one length. -/
def ofColumns (title yLabel : String) (labels : List String) (values errors : List Float) :
    Except Error Chart :=
  if labels.length ≠ values.length ∨ labels.length ≠ errors.length then
    .error (.columns labels.length values.length errors.length)
  else
    .ok { title, yLabel,
          bars := List.zipWith (fun label (value, error) => ⟨label, value, error⟩) labels
            (values.zip errors) }

/-! ### Validation -/

/-- Checks that the value and the error of a bar can be drawn. -/
def checkBar (b : Bar) : Except Error Unit :=
  if !b.value.isFinite then .error (.nonFiniteValue b.label)
  else if !b.error.isFinite || b.error < 0 then .error (.invalidError b.label b.error)
  else .ok ()

/-- The first fault of a chart. -/
def validate (c : Chart) : Except Error Unit := do
  if c.bars.isEmpty then throw .noBars
  if !(0 < c.barWidth && c.barWidth ≤ 1) then throw (.barWidth c.barWidth)
  c.bars.forM checkBar

end Chart

end Campaign
