import Campaign.Chart.Layout
import Campaign.Report.Outcome

/-!
# The log

What the program tells of its work while it goes on, if that is wished. The lines stand beside the
output, among the texts of failures. What a console puts in front of them, such as the time, is its
own.

* `Event`: what is told, with the figures that belong to it;
* `Event.text`: its message and its fields;
* `Report.events`: what is told while a report is evaluated.
-/

namespace Campaign

/-- What is told of the work. -/
inductive Event where
  /-- An experiment file is read and has no fault. -/
  | loaded (file : String) (reports : Nat) (chart : Bool)
  /-- The reports of a file are next. -/
  | running (file : String) (reports : Nat)
  /-- A report has no fault and is next. -/
  | evaluating (report : String) (samples comparisons : Nat)
  | summary (label : String) (figures : Summary)
  /-- The table of the exact method is too large. -/
  | tooLarge (n₁ n₂ : Nat)
  /-- Two samples have been compared, by the upper tail of `u`. -/
  | tested (n₁ n₂ : Nat) (u : Float) (result : RankSum.Result)
  | rendering (bars : Nat) (range : Float × Float)
  /-- A chart stands in its file. -/
  | written (output : String) (bars : Nat)

/-- A message and the fields that belong to it. -/
def withFields (message : String) (fields : List (String × String)) : String :=
  String.join (message :: fields.map fun (name, value) => String.join [" ", name, "=", value])

/-- The text of an event. -/
def Event.text (e : Event) : String :=
  let figure := Decimal.Style.figure.render
  match e with
  | loaded file reports chart =>
    withFields "loaded experiment file"
      [("path", file), ("reports", toString reports), ("chart", toString chart)]
  | running file reports =>
    withFields "running experiment file" [("file", file), ("reports", toString reports)]
  | evaluating report samples comparisons =>
    withFields "evaluating report"
      [("report", report), ("samples", toString samples), ("comparisons", toString comparisons)]
  | summary label figures =>
    withFields "sample summary"
      [("label", label), ("mean", figure figures.mean), ("median", figure figures.median),
        ("stddev", figure figures.stddev)]
  | tooLarge n₁ n₂ =>
    withFields "exact distribution too large, using normal approximation"
      [("n1", toString n₁), ("n2", toString n₂)]
  | tested n₁ n₂ u result =>
    withFields "mann-whitney u"
      [("n1", toString n₁), ("n2", toString n₂), ("u1", figure result.statistic), ("u", figure u),
        ("method", result.method.name), ("alternative", result.alternative.name),
        ("pvalue", figure result.pvalue)]
  | rendering bars range =>
    withFields "rendering bar chart"
      [("bars", toString bars), ("y_min", figure range.1), ("y_max", figure range.2)]
  | written output bars =>
    withFields "chart written" [("path", output), ("bars", toString bars)]

/-! ### The events of an evaluation -/

section

variable (tail : Float → Float)

/-- What is told while two samples are compared. -/
def RankSum.events (x y : List Float) (c : Config) : List Event :=
  let n₁ := x.length
  let n₂ := y.length
  let ranks := PooledRanks.of x y
  let tooLarge := (checkInput x y).isOk && !ranks.allTied &&
    c.resolve n₁ n₂ ranks.hasTies = .exact && (NullDistribution.tabulate? n₁ n₂).isNone
  let tested := match test tail x y c with
    | .ok result =>
      let u₁ := result.statistic
      [.tested n₁ n₂ (c.alternative.choose u₁ (n₁.toFloat * n₂.toFloat - u₁)) result]
    | .error _ => []
  (if tooLarge then [.tooLarge n₁ n₂] else []) ++ tested

namespace Report

/-- What is told while a comparison is made. -/
def comparisonEvents (r : Report) (c : Comparison) : List Event :=
  match r.lookUp c c.x, r.lookUp c c.y with
  | .ok x, .ok y => RankSum.events tail x.values y.values c.config
  | _, _ => []

/-- What is told while comparisons are made in order, up to the first that fails. -/
def comparisonsEvents (r : Report) : List Comparison → List Event
  | [] => []
  | c :: cs =>
    r.comparisonEvents tail c ++
      match r.testLine tail c with
      | .ok _ => comparisonsEvents r cs
      | .error _ => []

/-- What is told while a report is evaluated: of a report with a fault nothing, else of it, of each
sample, and of the comparisons. -/
def events (r : Report) : List Event :=
  match r.validate with
  | .error _ => []
  | .ok () =>
    -- a report without a fault has a summary of each sample
    let summaries := r.samples.filterMap fun s => (Summary.of s).toOption.map (.summary s.label)
    .evaluating r.name r.samples.length r.comparisons.length ::
      (summaries ++ r.comparisonsEvents tail r.comparisons)

end Report

end

end Campaign
