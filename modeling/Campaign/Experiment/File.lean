import Campaign.Experiment.Basic
import Campaign.Toml.Decode
import Campaign.Toml.Printer
import Campaign.Toml.Reader

/-!
# Experiment files

Experiments are written as TOML. Each type that a file holds has a function `toToml` and a function
`ofToml?` that reads what the first one writes.

* `Experiment.text`: an experiment as written;
* `Experiment.parse`: the experiment that a text describes, validated.
-/

namespace Campaign

open Toml

/-! ### Samples and comparisons -/

/-- A sample as a table. -/
def Sample.toToml (s : Sample) : Toml :=
  .table [("label", .string s.label), ("values", .array (s.values.map .float))]

/-- The sample that a value describes. -/
def Sample.ofToml? (v : Toml) : Option Sample := do
  let fields ← fields? ["label", "values"] v
  return { label := ← fields.required? "label" string?
           values := ← fields.required? "values" (list? float?) }

/-- A comparison as a table. -/
def Comparison.toToml (c : Comparison) : Toml :=
  .table [("title", .string c.title), ("x", .string c.x), ("y", .string c.y),
    ("alternative", .string c.config.alternative.name),
    ("use_continuity", .bool c.config.continuity), ("method", .string c.config.method.name)]

/-- The comparison that a table describes. -/
def Comparison.ofToml? (v : Toml) : Option Comparison := do
  let fields ← table? v
  let default : RankSum.Config := {}
  let alternative := choice? RankSum.Alternative.ofName? isEmptyTable
  let method := choice? RankSum.Method.ofName? isEmptyTable
  return { title := ← fields.required? "title" string?
           x := ← fields.required? "x" string?
           y := ← fields.required? "y" string?
           config :=
             { alternative := ← fields.optional? "alternative" alternative default.alternative
               continuity := ← fields.optional? "use_continuity" bool? default.continuity
               method := ← fields.optional? "method" method default.method } }

/-! ### Reports -/

/-- A report as a table; the usual layout of the means is not mentioned. -/
def Report.toToml (r : Report) : Toml :=
  .table ([("name", .string r.name), ("description", .string r.description),
      ("precision", .integer r.precision), ("separator", .bool r.separator)] ++
    (if r.meanLayout = .inline then [] else [("mean_layout", .string r.meanLayout.name)]) ++
    [("sample", .array (r.samples.map (·.toToml))),
      ("comparison", .array (r.comparisons.map (·.toToml)))])

/-- The report that a value describes. -/
def Report.ofToml? (v : Toml) : Option Report := do
  let fields ← fields?
    ["name", "description", "precision", "separator", "mean_layout", "sample", "comparison"] v
  let layout := choice? MeanLayout.ofName? fun v => isEmptyTable v || isEmptyArray v
  return { name := ← fields.required? "name" string?
           description := ← fields.optional? "description" string? ""
           precision := ← fields.optional? "precision" (nat? greatestPrecision) 2
           separator := ← fields.optional? "separator" bool? true
           meanLayout := ← fields.optional? "mean_layout" layout .inline
           samples := ← fields.optional? "sample" (list? Sample.ofToml?) []
           comparisons := ← fields.optional? "comparison" (list? Comparison.ofToml?) [] }

/-! ### Charts -/

/-- A bar as a table. -/
def Bar.toToml (b : Bar) : Toml :=
  .table [("label", .string b.label), ("value", .float b.value), ("error", .float b.error)]

/-- The bar that a value describes. -/
def Bar.ofToml? (v : Toml) : Option Bar := do
  let fields ← fields? ["label", "value", "error"] v
  return { label := ← fields.required? "label" string?
           value := ← fields.required? "value" float?
           error := ← fields.required? "error" float? }

/-- A chart as a table. -/
def Chart.toToml (c : Chart) : Toml :=
  .table [("title", .string c.title), ("y_label", .string c.yLabel),
    ("bar_width", .float c.barWidth), ("bar", .array (c.bars.map (·.toToml)))]

/-- The chart that a value describes. -/
def Chart.ofToml? (v : Toml) : Option Chart := do
  let fields ← fields? ["title", "y_label", "bar_width", "bar"] v
  return { title := ← fields.required? "title" string?
           yLabel := ← fields.optional? "y_label" string? ""
           barWidth := ← fields.optional? "bar_width" float? 0.6
           bars := ← fields.optional? "bar" (list? Bar.ofToml?) [] }

/-! ### Experiments -/

namespace Experiment

/-- An experiment as a table. -/
def toToml (e : Experiment) : Toml :=
  .table (("report", .array (e.reports.map (·.toToml))) ::
    match e.chart with
    | some chart => [("chart", chart.toToml)]
    | none => [])

/-- The experiment that a table describes. -/
def ofToml? (v : Toml) : Option Experiment := do
  let fields ← table? v
  return { reports := ← fields.optional? "report" (list? Report.ofToml?) []
           chart := ← fields.optional? "chart" (fun v => (Chart.ofToml? v).map some) none }

/-- An experiment as written. -/
def text (e : Experiment) : String := e.toToml.render

/-- The experiment that a text describes, if it has no fault. -/
def parse (text : String) : Except Error Experiment :=
  match (Toml.read? text).bind ofToml? with
  | none => .error .unreadable
  | some e => do
    e.validate
    return e

end Experiment

end Campaign
