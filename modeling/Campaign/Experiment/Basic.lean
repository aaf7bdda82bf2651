import Campaign.Chart.Basic
import Campaign.Report.Basic

/-!
# Experiments

An experiment is what an experiment file describes: reports to evaluate and at most one chart.

* `Experiment.validate`: the first fault of an experiment.

## Main statements

* `checkReports_eq_ok_iff`: reports pass together exactly if each of them passes.
-/

namespace Campaign

/-- The contents of an experiment file. -/
structure Experiment where
  reports : List Report := []
  chart : Option Chart := none
  deriving DecidableEq

namespace Experiment

/-- Why an experiment file is of no use. -/
inductive Error where
  /-- Its text does not describe an experiment. -/
  | unreadable
  | empty
  | report (source : Report.Error)
  | chart (source : Chart.Error)
  deriving DecidableEq

namespace Error

/-- What is said of a text that does not describe an experiment. -/
def unreadableReason : String := "the text does not describe reports and a chart"

/-- The text of an error. -/
def message : Error → String
  | unreadable => String.join ["invalid experiment file: ", unreadableReason]
  | empty => "experiment file defines neither reports nor a chart"
  | report source => source.message
  | chart source => String.join ["invalid chart: ", source.message]

/-- The texts of the errors behind an error, the nearest first. -/
def causes : Error → List String
  | unreadable => [unreadableReason]
  | empty => []
  | report source => source.causes
  | chart source => [source.message]

end Error

/-- The experiment that consists of reports. -/
def ofReports (reports : List Report) : Experiment := { reports }

/-- Validates each report in turn. -/
def checkReports : List Report → Except Error Unit
  | [] => .ok ()
  | r :: rs =>
    match r.validate with
    | .error e => .error (.report e)
    | .ok () => checkReports rs

theorem checkReports_eq_ok_iff (rs : List Report) :
    checkReports rs = .ok () ↔ ∀ r ∈ rs, r.validate = .ok () := by
  induction rs with
  | nil => simp [checkReports]
  | cons r rs ih =>
    rw [checkReports]
    cases h : r.validate <;> simp [h, ih]

/-- The first fault of an experiment: that it is empty, then those of its reports in order, then
that of its chart. -/
def validate (e : Experiment) : Except Error Unit := do
  if e.reports.isEmpty && e.chart.isNone then throw .empty
  checkReports e.reports
  match e.chart with
  | none => return
  | some chart =>
    match chart.validate with
    | .error e => throw (.chart e)
    | .ok () => return

end Experiment

end Campaign
