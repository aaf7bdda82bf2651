import Campaign.Decimal.Layout
import Campaign.Sample.Basic

/-!
# Figures of a sample

* `percentile?`: a percentile of ascending data, interpolated between its neighbours;
* `Summary.of`: count, mean, spread and order statistics of a sample;
* `Rounded.of`: a figure rounded to a number of decimal places.

## Main statements

* `Rounded.precision_le`: no figure keeps more than `maxPrecision` places.
-/

namespace Campaign

/-- The percentile `p` of ascending data: the value at index `p/100 · (n-1)`, between two values
the mean of both weighted by nearness. No data have percentile zero, and there is none where a
neighbour lies outside the data. -/
def percentile? (data : List Float) (p : Float) : Option Float :=
  match data with
  | [] => some 0
  | [v] => some v
  | _ =>
    let index := p / 100 * (data.length - 1).toFloat
    let lower := Binary64.truncate index
    let upper := Binary64.ceilNat index
    if lower = upper then data[lower]?
    else do
      let a ← data[lower]?
      let b ← data[upper]?
      let weight := index - lower.toFloat
      return a * (1 - weight) + b * weight

/-! ### Summaries -/

/-- The figures of a sample. -/
structure Summary where
  count : Nat
  mean : Float
  /-- The standard deviation with denominator `n - 1`; zero for a single value. -/
  stddev : Float
  min : Float
  max : Float
  median : Float
  deriving DecidableEq

/-- The values in ascending order. -/
def Sample.sorted (s : Sample) : List Float := s.values.mergeSort Binary64.totalLE

/-- The standard deviation of values around their mean. -/
def standardDeviation (values : List Float) (mean : Float) : Float :=
  if 1 < values.length then
    (Binary64.sum (values.map fun v => (v - mean) * (v - mean)) /
      (values.length - 1).toFloat).sqrt
  else 0

/-- The figures of a usable sample. -/
def Summary.of (s : Sample) : Except Sample.Error Summary := do
  let mean ← s.mean
  let sorted := s.sorted
  let some min := sorted.head? | throw (.noPercentile s.label)
  let some max := sorted.getLast? | throw (.noPercentile s.label)
  let some median := percentile? sorted 50 | throw (.noPercentile s.label)
  return { count := s.values.length, mean, stddev := standardDeviation s.values mean, min, max,
           median }

/-! ### Rounded figures -/

/-- The most decimal places that a rounded figure keeps; a double carries no more. -/
def maxPrecision : Nat := 17

/-- A figure rounded to a number of decimal places. -/
structure Rounded where
  value : Float
  precision : Nat
  deriving DecidableEq

namespace Rounded

/-- Rounds the exact value of a double, a half going to the even digit. -/
def of (raw : Float) (precision : Nat) : Rounded :=
  let places := min precision maxPrecision
  ⟨Decimal.roundPlaces places raw, places⟩

theorem precision_le (raw : Float) (precision : Nat) :
    (of raw precision).precision ≤ maxPrecision := Nat.min_le_right ..

/-- The text of a rounded figure. -/
def text (r : Rounded) : String := Decimal.Style.figure.render r.value

end Rounded

/-- The mean of a sample, rounded. -/
def Sample.roundedMean (s : Sample) (precision : Nat) : Except Sample.Error Rounded := do
  return Rounded.of (← s.mean) precision

end Campaign
