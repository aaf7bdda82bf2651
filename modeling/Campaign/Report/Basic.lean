import Campaign.RankSum.Test
import Campaign.Sample.Summary

/-!
# Reports

A report is a named list of samples with the comparisons to be made between them.

* `Report.sample`, `Report.compare` and their companions extend a report;
* `Report.validate`: the first fault that keeps a report from being evaluated.

## Main statements

* `MeanLayout.ofName?_name`: a name names one layout.
* `checkComparisons_eq_ok_iff`: comparisons pass exactly if their labels are known.
-/

namespace Campaign

/-- A rank-sum test between two samples of a report. -/
structure Comparison where
  title : String
  /-- The label of the first sample, about which the alternative speaks. -/
  x : String
  /-- The label of the second sample. -/
  y : String
  config : RankSum.Config := {}
  deriving DecidableEq, Repr

/-- How the means are printed. -/
inductive MeanLayout where
  /-- Label and mean on one line. -/
  | inline
  /-- The mean on a line below the label, then a blank line. -/
  | block
  deriving DecidableEq, Repr

namespace MeanLayout

/-- The written name. -/
def name : MeanLayout → String
  | inline => "inline"
  | block => "block"

/-- The layout with a written name. -/
def ofName? (s : String) : Option MeanLayout := [inline, block].find? (·.name = s)

theorem ofName?_name (l : MeanLayout) : ofName? l.name = some l := by cases l <;> decide

end MeanLayout

/-- A named list of samples and comparisons. -/
structure Report where
  name : String
  description : String := ""
  /-- The decimal places of the printed means. -/
  precision : Nat := 2
  /-- Whether a line separates the means from the tests. -/
  separator : Bool := true
  meanLayout : MeanLayout := .inline
  samples : List Sample := []
  comparisons : List Comparison := []
  deriving DecidableEq

namespace Report

/-- The greatest precision that files and documents may state: the greatest 32-bit word. -/
def greatestPrecision : Nat := 4294967295

/-! ### Extending a report -/

/-- The report without the line between means and tests. -/
def withoutSeparator (r : Report) : Report := { r with separator := false }

/-- The report with another layout of the means. -/
def withMeanLayout (r : Report) (layout : MeanLayout) : Report := { r with meanLayout := layout }

/-- The report with one more sample at the end. -/
def sample (r : Report) (label : String) (values : List Float) : Report :=
  { r with samples := r.samples ++ [⟨label, values⟩] }

/-- The report with one more comparison at the end. -/
def addComparison (r : Report) (c : Comparison) : Report :=
  { r with comparisons := r.comparisons ++ [c] }

/-- The report with a test of whether sample `x` tends to smaller values than sample `y`. -/
def compare (r : Report) (title x y : String) : Report := r.addComparison { title, x, y }

/-- The first sample with a label. -/
def findSample? (r : Report) (label : String) : Option Sample :=
  r.samples.find? (·.label = label)

/-! ### Faults -/

/-- Why a report cannot be evaluated. -/
inductive Error where
  | precision (report : String) (precision max : Nat)
  | duplicateLabel (report label : String)
  | unknownSample (report comparison label : String)
  | sample (report : String) (source : Sample.Error)
  | rankSum (report comparison : String) (source : RankSum.Error)
  deriving DecidableEq, Repr

namespace Error

/-- The text of an error. -/
def message : Error → String
  | precision report p max =>
    String.join ["report '", report, "': precision ", toString p, " exceeds ", toString max,
      " digits"]
  | duplicateLabel report label =>
    String.join ["report '", report, "': duplicate sample label '", label, "'"]
  | unknownSample report comparison label =>
    String.join ["report '", report, "': comparison '", comparison,
      "' references unknown sample '", label, "'"]
  | sample report source => String.join ["report '", report, "': ", source.message]
  | rankSum report comparison source =>
    String.join ["report '", report, "', comparison '", comparison, "': ", source.message]

/-- The texts of the errors behind an error, the nearest first. -/
def causes : Error → List String
  | sample _ source => [source.message]
  | rankSum _ _ source => [source.message]
  | _ => []

end Error

/-! ### Validation -/

section

variable (report : String)

/-- Checks each sample in turn: first that its label is new, then that it is usable. -/
def checkSamples : List String → List Sample → Except Error Unit
  | _, [] => .ok ()
  | seen, s :: rest =>
    if s.label ∈ seen then .error (.duplicateLabel report s.label)
    else
      match s.validate with
      | .error e => .error (.sample report e)
      | .ok () => checkSamples (s.label :: seen) rest

/-- Checks each comparison in turn: both labels have to be known, the first one first. -/
def checkComparisons (labels : List String) : List Comparison → Except Error Unit
  | [] => .ok ()
  | c :: rest =>
    if c.x ∉ labels then .error (.unknownSample report c.title c.x)
    else if c.y ∉ labels then .error (.unknownSample report c.title c.y)
    else checkComparisons labels rest

theorem checkComparisons_eq_ok_iff (labels : List String) (cs : List Comparison) :
    checkComparisons report labels cs = .ok () ↔ ∀ c ∈ cs, c.x ∈ labels ∧ c.y ∈ labels := by
  induction cs with
  | nil => simp [checkComparisons]
  | cons c cs ih =>
    rw [checkComparisons]
    split
    · simp_all
    · split
      · simp_all
      · simp_all

end

/-- The first fault of a report: its precision, then its samples in order, then its comparisons
in order. -/
def validate (r : Report) : Except Error Unit := do
  if maxPrecision < r.precision then throw (.precision r.name r.precision maxPrecision)
  checkSamples r.name [] r.samples
  checkComparisons r.name (r.samples.map (·.label)) r.comparisons

end Report

end Campaign
