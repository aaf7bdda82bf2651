import Campaign.Report.Basic

/-!
# What a report computes

Evaluating a report gives a line for each sample and a line for each comparison, in order. The
upper tail of the normal approximation is a parameter.

* `Report.evaluate`: the outcome, or the first error;
* `Outcome.text`: the outcome as it is printed.
-/

namespace Campaign

/-- The mean of one sample as printed, with all its figures. -/
structure MeanLine where
  label : String
  mean : Rounded
  summary : Summary
  deriving DecidableEq

/-- The result of one comparison. -/
structure TestLine where
  title : String
  x : String
  y : String
  result : RankSum.Result
  deriving DecidableEq

/-- All that a report computes, in the order of printing. -/
structure Outcome where
  name : String
  separator : Bool
  meanLayout : MeanLayout
  means : List MeanLine
  tests : List TestLine
  deriving DecidableEq

namespace Report

/-- The line of one sample. -/
def meanLine (r : Report) (s : Sample) : Except Error MeanLine :=
  match Summary.of s with
  | .ok summary => .ok ⟨s.label, Rounded.of summary.mean r.precision, summary⟩
  | .error e => .error (.sample r.name e)

/-- The sample that a comparison refers to. -/
def lookUp (r : Report) (c : Comparison) (label : String) : Except Error Sample :=
  match r.findSample? label with
  | some s => .ok s
  | none => .error (.unknownSample r.name c.title label)

section

variable (tail : Float → Float)

/-- The line of one comparison. -/
def testLine (r : Report) (c : Comparison) : Except Error TestLine := do
  let x ← r.lookUp c c.x
  let y ← r.lookUp c c.y
  match RankSum.test tail x.values y.values c.config with
  | .ok result => return ⟨c.title, c.x, c.y, result⟩
  | .error e => throw (.rankSum r.name c.title e)

/-- Validates a report, then summarises all samples and makes all comparisons. -/
def evaluate (r : Report) : Except Error Outcome := do
  r.validate
  let means ← r.samples.mapM r.meanLine
  let tests ← r.comparisons.mapM (r.testLine tail)
  return { name := r.name, separator := r.separator, meanLayout := r.meanLayout, means, tests }

/-- The outcomes of reports in order, or the error of the first that has one. -/
def evaluateAll (reports : List Report) : Except Error (List Outcome) :=
  reports.mapM (evaluate tail)

end

end Report

/-! ### Printing -/

/-- The line between the means and the tests. -/
def separatorLine : String := "=============p-value==============\n"

/-- A mean as printed. -/
def MeanLine.text (line : MeanLine) : MeanLayout → String
  | .inline => String.join [line.label, " :  ", line.mean.text, "\n"]
  | .block => String.join [line.label, ":\n", line.mean.text, "\n\n"]

/-- A test as printed. -/
def TestLine.text (line : TestLine) : String :=
  String.join [line.title, ":\n", line.result.text, "\n\n"]

/-- An outcome as printed: the means, the separator and the tests. -/
def Outcome.text (o : Outcome) : String :=
  String.join (o.means.map (·.text o.meanLayout)) ++ (if o.separator then separatorLine else "") ++
    String.join (o.tests.map (·.text))

end Campaign
