import Campaign.Catalog
import Campaign.Experiment.Basic

/-!
# Failures

* `FileError`: why a file cannot be read or written;
* `Failure`: why a request comes to nothing;
* `Failure.text`: the text of a failure, with its causes.
-/

namespace Campaign

/-- Why a file cannot be read or written. -/
inductive FileError where
  | missing
  | isDirectory
  | notDirectory
  | nameTooLong
  /-- A reason that the system has given. -/
  | other (reason : String)
  deriving DecidableEq, Repr

/-- The text of an error with a file. -/
def FileError.message : FileError → String
  | missing => "No such file or directory (os error 2)"
  | isDirectory => "Is a directory (os error 21)"
  | notDirectory => "Not a directory (os error 20)"
  | nameTooLong => "File name too long (os error 36)"
  | other reason => reason

/-- Why a request comes to nothing. -/
inductive Failure where
  /-- There is no built-in report of the name. -/
  | unknownReport (name : String)
  | unreadable (file : String) (error : FileError)
  | experiment (file : String) (error : Experiment.Error)
  | noReports (file : String)
  | noChart (file : String)
  | report (error : Report.Error)
  | chart (output : String) (error : Chart.Error)
  | unwritable (output : String) (error : FileError)
  deriving DecidableEq

namespace Failure

/-- What is said first. -/
def message : Failure → String
  | unknownReport name =>
    String.join ["unknown report '", name, "' (available: ", ", ".intercalate Catalog.names, ")"]
  | unreadable file _ | experiment file _ => String.join ["failed to load ", file]
  | noReports file => String.join [file, " defines no reports"]
  | noChart file => String.join [file, " has no [chart] table"]
  | report error => error.message
  | chart output _ | unwritable output _ => String.join ["failed to render chart to ", output]

/-- What lies behind a failure, the nearest first. -/
def causes : Failure → List String
  | unreadable file error =>
    [String.join ["failed to read ", file, ": ", error.message], error.message]
  | experiment _ error => error.message :: error.causes
  | report error => error.causes
  | chart _ error => [error.message]
  | unwritable _ error =>
    [String.join ["Failed to save chart to file: ", error.message], error.message]
  | _ => []

/-! ### Text -/

/-- A text with a mark in front of its first line and blanks in front of the others. -/
def indented (mark blanks : String) (s : String) : String :=
  mark ++ ("\n" ++ blanks).intercalate (s.splitOn "\n")

/-- Causes below one another, numbered if there is more than one. -/
def causesText : List String → String
  | [] => ""
  | [cause] => String.join ["\n\nCaused by:\n", indented "    " "    " cause]
  | causes =>
    String.join ("\n\nCaused by:" :: causes.zipIdx.map fun (cause, i) =>
      String.join ["\n", indented (String.join ["    ", toString i, ": "]) "       " cause])

/-- The text of a failure. -/
def text (f : Failure) : String := String.join ["Error: ", f.message, causesText f.causes, "\n"]

end Failure

end Campaign
