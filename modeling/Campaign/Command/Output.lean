import Campaign.Catalog
import Campaign.Command.Basic
import Campaign.Csv.Basic
import Campaign.Document.Basic
import Campaign.Experiment.File

/-!
# What is printed

* `Output`: what a request leads to on the output;
* `Output.text`: its text.
-/

namespace Campaign

/-- The name of the program. -/
def programName : String := "bcfuzz-eval"

/-- What a request leads to on the output. -/
inductive Output where
  | version
  /-- Names and descriptions of reports. -/
  | catalog (format : Format) (reports : List Report)
  /-- What reports computed. -/
  | outcomes (format : Format) (outcomes : List Outcome)
  /-- An experiment file. -/
  | experiment (e : Experiment)
  /-- The path of a file that was written. -/
  | path (path : String)

/-- A text with blanks after it, up to a length. -/
def padded (length : Nat) (s : String) : String := s.pushn ' ' (length - s.length)

/-- The length of the longest name. -/
def nameWidth (reports : List Report) : Nat := (reports.map (·.name.length)).foldl max 0

/-- The line of a report in a list: its name, up to a width, and its description. -/
def catalogLine (width : Nat) (r : Report) : String :=
  String.join [padded width r.name, "  ", r.description, "\n"]

/-- Reports in two columns, the names and the descriptions. -/
def catalogText (reports : List Report) : String :=
  String.join (reports.map (catalogLine (nameWidth reports)))

/-- The text of an output. -/
def Output.text : Output → String
  | version => String.join [programName, " ", programVersion, "\n"]
  | catalog .text reports => catalogText reports
  | catalog .json reports => (Document.ofReports reports).text ++ "\n"
  | catalog .csv reports => Csv.catalog reports
  | outcomes .text os => String.join (os.map (·.text))
  | outcomes .json os => (Document.ofOutcomes os).text ++ "\n"
  | outcomes .csv os => Csv.outcomes os
  | experiment e => e.text
  | path p => p ++ "\n"

end Campaign
