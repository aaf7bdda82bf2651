import Campaign.Json.Decode
import Campaign.Report.Outcome

/-!
# Outcomes and catalogue entries in JSON

Each type that a document holds has a function `toJson` and a function `ofJson?` that reads what
the first one writes.

* `Outcome.toJson`, `Outcome.ofJson?` and those of the parts of an outcome;
* `Entry`: what a catalogue says about a report.
-/

namespace Campaign

open Json

/-! ### Figures -/

/-- The greatest count that is read. -/
def greatestCount : Nat := 18446744073709551615

/-- A rounded figure as a value. -/
def Rounded.toJson (r : Rounded) : Json :=
  record [("value", ofFloat r.value), ("precision", ofNat r.precision)]

/-- The rounded figure that a value writes. -/
def Rounded.ofJson? (v : Json) : Option Rounded := do
  let fields ← fields? ["value", "precision"] v
  return { value := ← fields.required? "value" float?
           precision := ← fields.required? "precision" (nat? Report.greatestPrecision) }

/-- The figures of a sample as a value. -/
def Summary.toJson (s : Summary) : Json :=
  record [("count", ofNat s.count), ("mean", ofFloat s.mean), ("stddev", ofFloat s.stddev),
    ("min", ofFloat s.min), ("max", ofFloat s.max), ("median", ofFloat s.median)]

/-- The figures of a sample that a value writes. -/
def Summary.ofJson? (v : Json) : Option Summary := do
  let fields ← fields? ["count", "mean", "stddev", "min", "max", "median"] v
  return { count := ← fields.required? "count" (nat? greatestCount)
           mean := ← fields.required? "mean" float?
           stddev := ← fields.required? "stddev" float?
           min := ← fields.required? "min" float?
           max := ← fields.required? "max" float?
           median := ← fields.required? "median" float? }

/-! ### Lines -/

/-- The mean of a sample as a value. -/
def MeanLine.toJson (l : MeanLine) : Json :=
  record [("label", ofString l.label), ("mean", l.mean.toJson), ("summary", l.summary.toJson)]

/-- The mean of a sample that a value writes. -/
def MeanLine.ofJson? (v : Json) : Option MeanLine := do
  let fields ← fields? ["label", "mean", "summary"] v
  return { label := ← fields.required? "label" string?
           mean := ← fields.required? "mean" Rounded.ofJson?
           summary := ← fields.required? "summary" Summary.ofJson? }

/-- The result of a test as a value. -/
def RankSum.Result.toJson (r : RankSum.Result) : Json :=
  record [("statistic", ofFloat r.statistic), ("pvalue", ofFloat r.pvalue),
    ("method", ofString r.method.name), ("alternative", ofString r.alternative.name)]

/-- The result of a test that a value writes. -/
def RankSum.Result.ofJson? (v : Json) : Option RankSum.Result := do
  let fields ← fields? ["statistic", "pvalue", "method", "alternative"] v
  return { statistic := ← fields.required? "statistic" float?
           pvalue := ← fields.required? "pvalue" float?
           method := ← fields.required? "method" (choice? RankSum.Method.ofName?)
           alternative := ← fields.required? "alternative" (choice? RankSum.Alternative.ofName?) }

/-- A test as a value. -/
def TestLine.toJson (l : TestLine) : Json :=
  record [("title", ofString l.title), ("x", ofString l.x), ("y", ofString l.y),
    ("result", l.result.toJson)]

/-- The test that a value writes. -/
def TestLine.ofJson? (v : Json) : Option TestLine := do
  let fields ← fields? ["title", "x", "y", "result"] v
  return { title := ← fields.required? "title" string?
           x := ← fields.required? "x" string?
           y := ← fields.required? "y" string?
           result := ← fields.required? "result" RankSum.Result.ofJson? }

/-! ### Outcomes -/

/-- An outcome as a value. -/
def Outcome.toJson (o : Outcome) : Json :=
  record [("name", ofString o.name), ("separator", bool o.separator),
    ("mean_layout", ofString o.meanLayout.name), ("means", array (o.means.map (·.toJson))),
    ("tests", array (o.tests.map (·.toJson)))]

/-- The outcome that a value writes. -/
def Outcome.ofJson? (v : Json) : Option Outcome := do
  let fields ← fields? ["name", "separator", "mean_layout", "means", "tests"] v
  return { name := ← fields.required? "name" string?
           separator := ← fields.required? "separator" bool?
           meanLayout := ← fields.required? "mean_layout" (choice? MeanLayout.ofName?)
           means := ← fields.required? "means" (list? MeanLine.ofJson?)
           tests := ← fields.required? "tests" (list? TestLine.ofJson?) }

/-! ### Catalogue entries -/

/-- What a catalogue says about a report. -/
structure Entry where
  name : String
  description : String
  samples : Nat
  comparisons : Nat
  deriving DecidableEq, Repr

namespace Entry

/-- The entry of a report. -/
def of (r : Report) : Entry := ⟨r.name, r.description, r.samples.length, r.comparisons.length⟩

/-- An entry as a value. -/
def toJson (e : Entry) : Json :=
  record [("name", ofString e.name), ("description", ofString e.description),
    ("samples", ofNat e.samples), ("comparisons", ofNat e.comparisons)]

/-- The entry that a value writes. -/
def ofJson? (v : Json) : Option Entry := do
  let fields ← fields? ["name", "description", "samples", "comparisons"] v
  return { name := ← fields.required? "name" string?
           description := ← fields.required? "description" string?
           samples := ← fields.required? "samples" (nat? greatestCount)
           comparisons := ← fields.required? "comparisons" (nat? greatestCount) }

end Entry

end Campaign
