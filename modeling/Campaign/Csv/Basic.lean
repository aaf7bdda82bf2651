import Campaign.Report.Outcome

/-!
# Comma-separated tables

A record is a line of fields divided by commas. A field that holds a comma, a quote or a line feed
is put in quotes, and the quotes in it are doubled.

* `Csv.record`: the line of a list of fields;
* `Csv.outcomes`: a table of what reports compute, one record for each mean and each test;
* `Csv.catalog`: a table of what there is in reports.
-/

namespace Campaign.Csv

/-! ### Fields and records -/

/-- A text with each quote doubled. -/
def doubleQuotes : List Char → List Char
  | [] => []
  | c :: s => if c = '"' then '"' :: '"' :: doubleQuotes s else c :: doubleQuotes s

/-- The characters that a field holds only in quotes. -/
def isSpecial (c : Char) : Bool := c = ',' || c = '"' || c = '\n'

/-- A field as written. -/
def field (s : String) : String :=
  if s.toList.any isSpecial then String.ofList ('"' :: doubleQuotes s.toList ++ ['"']) else s

/-- A record as written, with the line feed that ends it. -/
def record (fields : List String) : String := ",".intercalate (fields.map field) ++ "\n"

/-- A table as written, record by record. -/
def table (records : List (List String)) : String := String.join (records.map record)

/-! ### Tables of outcomes -/

/-- The columns of a table of outcomes. -/
def outcomeHeader : List String :=
  ["report", "kind", "label", "x", "y", "mean", "median", "stddev", "statistic", "pvalue",
   "method", "alternative"]

/-- The record of a mean. -/
def meanRecord (report : String) (line : MeanLine) : List String :=
  let plain := Decimal.Style.plain.render
  [report, "mean", line.label, "", "", line.mean.text, plain line.summary.median,
   plain line.summary.stddev, "", "", "", ""]

/-- The record of a test. -/
def testRecord (report : String) (line : TestLine) : List String :=
  let figure := Decimal.Style.figure.render
  [report, "test", line.title, line.x, line.y, "", "", "", figure line.result.statistic,
   figure line.result.pvalue, line.result.method.name, line.result.alternative.name]

/-- The records of an outcome: its means, then its tests. -/
def outcomeRecords (o : Outcome) : List (List String) :=
  o.means.map (meanRecord o.name) ++ o.tests.map (testRecord o.name)

/-- The table of outcomes, in order. -/
def outcomes (os : List Outcome) : String := table (outcomeHeader :: os.flatMap outcomeRecords)

/-! ### Catalogues -/

/-- The columns of a catalogue. -/
def catalogHeader : List String := ["name", "samples", "comparisons", "description"]

/-- The record of a report: how much it holds, not what. -/
def catalogRecord (r : Report) : List String :=
  [r.name, toString r.samples.length, toString r.comparisons.length, r.description]

/-- The catalogue of reports, in order. -/
def catalog (rs : List Report) : String := table (catalogHeader :: rs.map catalogRecord)

end Campaign.Csv
