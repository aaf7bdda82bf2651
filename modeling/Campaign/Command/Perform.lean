import Campaign.Chart.Svg
import Campaign.Command.Failure
import Campaign.Command.Output

/-!
# What commands lead to

What a command leads to, as a value, is computed from the contents of the file that it reads. The
program itself goes step by step.

* `builtIn`, `load`, `adHoc`: the reports that a command is about;
* `Command.perform`: what a command leads to;
* `Effect`: what is printed, and the file that is written before.
-/

namespace Campaign

/-- What a command leads to when it succeeds. -/
structure Effect where
  output : Output
  /-- The drawing to be written, with its path. -/
  drawing : Option (String × Drawing) := none

/-- The reports with the given names, or a failure with the first that is unknown. -/
def builtIn : List String → Except Failure (List Report)
  | [] => .ok []
  | name :: names =>
    match Catalog.find? name with
    | none => .error (.unknownReport name)
    | some r => (builtIn names).map (r :: ·)

/-- The experiment in a file of which the contents, or why it cannot be read, are given. -/
def load (file : String) (contents : Except FileError String) : Except Failure Experiment :=
  match contents with
  | .error e => .error (.unreadable file e)
  | .ok text => (Experiment.parse text).mapError (.experiment file)

/-- The chart of a file, or the example. -/
def chartOf (data : Option String) (contents : Except FileError String) : Except Failure Chart :=
  match data with
  | none => .ok Catalog.exampleChart
  | some file => do
    match (← load file contents).chart with
    | some chart => return chart
    | none => throw (.noChart file)

/-- The report of a comparison of two samples. -/
def adHoc (x y : List Float) (config : RankSum.Config) (precision : Nat) : Report where
  name := "compare"
  description := "Ad hoc comparison"
  precision := precision
  samples := [⟨"x", x⟩, ⟨"y", y⟩]
  comparisons := [{ title := "x_vs_y", x := "x", y := "y", config }]

section

variable (tail : Float → Float)

/-- What reports compute, for printing. -/
def evaluated (format : Format) (reports : List Report) : Except Failure Effect := do
  let outcomes ← (Report.evaluateAll tail reports).mapError .report
  return { output := .outcomes format outcomes }

/-- What a command leads to. The contents are those of the file that it reads, if there is one. -/
def Command.perform (format : Format) (contents : Except FileError String) :
    Command → Except Failure Effect
  | list => .ok { output := .catalog format Catalog.reports }
  | report names => do evaluated tail format (← builtIn names)
  | reportAll => evaluated tail format Catalog.reports
  | run file => do
    let e ← load file contents
    if e.reports.isEmpty then throw (.noReports file)
    evaluated tail format e.reports
  | compare x y config precision => evaluated tail format [adHoc x y config precision]
  | exportReports [] => .ok { output := .experiment (.ofReports Catalog.reports) }
  | exportReports names => do
    return { output := .experiment (.ofReports (← builtIn names)) }
  | chart output data => do
    let drawing ← (← chartOf data contents).draw.mapError (.chart output)
    return { output := .path output, drawing := some (output, drawing) }

end

end Campaign
