import Campaign.RankSum.Config

/-!
# Commands

* `Command`: what the program can be asked to do;
* `Request`: what its arguments ask for.

## Main statements

* `Format.ofName?_name`: a name names one format.
-/

namespace Campaign

/-- How results are printed. -/
inductive Format where
  | text
  | json
  | csv
  deriving DecidableEq, Repr

namespace Format

/-- The written name. -/
def name : Format → String
  | text => "text"
  | json => "json"
  | csv => "csv"

/-- The format with a written name. -/
def ofName? (s : String) : Option Format := [text, json, csv].find? (·.name = s)

theorem ofName?_name (f : Format) : ofName? f.name = some f := by cases f <;> decide

end Format

/-- What the program can be asked to do. -/
inductive Command where
  /-- List the built-in reports. -/
  | list
  /-- Evaluate the built-in reports with the given names. -/
  | report (names : List String)
  /-- Evaluate all built-in reports. -/
  | reportAll
  /-- Evaluate the reports of an experiment file. -/
  | run (file : String)
  /-- Compare two samples. -/
  | compare (x y : List Float) (config : RankSum.Config) (precision : Nat)
  /-- Write the built-in reports with the given names, or all if there are none, as an experiment
  file. -/
  | exportReports (names : List String)
  /-- Draw the chart of an experiment file, or the example. -/
  | chart (output : String) (data : Option String)
  deriving DecidableEq

/-- What the arguments of the program ask for. -/
inductive Request where
  /-- To print the version. -/
  | version
  /-- To do something, and how to print what comes out. -/
  | perform (format : Format) (debug : Bool) (command : Command)
  deriving DecidableEq

/-- The file that a command reads. -/
def Command.source? : Command → Option String
  | run file => some file
  | chart _ data => data
  | _ => none

end Campaign
