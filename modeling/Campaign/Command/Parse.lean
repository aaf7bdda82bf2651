import Campaign.Command.Arguments
import Campaign.Command.Basic
import Campaign.Decimal.Read
import Campaign.Sample.Summary

/-!
# Reading the arguments of the program

* `Request.parse?`: what the arguments ask for; nothing where they are not understood.

The format and the wish for progress messages may stand before and after the name of the command;
the format after it counts.
-/

namespace Campaign

open Arguments

/-! ### Values -/

/-- A list of numbers with commas between them. -/
def readFloats? (s : String) : Option (List Float) :=
  (s.splitOn ",").mapM fun item => Decimal.readFloat? item.toList

/-- A path; there is no empty one. -/
def readPath? (s : String) : Option String := if s.isEmpty then none else some s

/-- A number of decimal places that figures can be rounded to. -/
def readPrecision? (s : String) : Option Nat :=
  let (negative, digits) := Decimal.splitSign s.toList
  if digits.isEmpty || !digits.all Char.isDigit then none
  else
    let n := Decimal.ofDigits digits
    if n ≤ maxPrecision ∧ (negative = true → n = 0) then some n else none

/-! ### Commands -/

/-- The options that stand on both sides of the command. -/
def sharedSpecs : List Spec := [{ name := "format" }, { name := "debug", taking := .nothing }]

/-- The options before the command. -/
def programSpecs : List Spec :=
  { name := "version", letter := some 'V', taking := .nothing, ends := true } :: sharedSpecs

/-- The options of a command. -/
def commandSpecs? : String → Option (List Spec)
  | "list" => some []
  | "report" => some [{ name := "all", taking := .nothing }]
  | "run" => some []
  | "compare" =>
    some [{ name := "x", taking := .number, repeats := true },
      { name := "y", taking := .number, repeats := true }, { name := "alternative" },
      { name := "continuity", taking := .nothing }, { name := "method" }, { name := "precision" }]
  | "export" => some []
  | "chart" => some [{ name := "output", letter := some 'o' }, { name := "data" }]
  | _ => none

/-- The numbers of an option that has to be there. -/
def sampleOf? (items : Items) (name : String) : Option (List Float) := do
  guard (items.has name)
  return (← (items.values name).mapM readFloats?).flatten

/-- A command from its name and what stands after it. -/
def Command.ofItems? (name : String) (items : Items) : Option Command := do
  let words := items.words
  match name with
  | "list" => if words.isEmpty then some .list else none
  | "report" =>
    match items.has "all", words with
    | true, [] => some .reportAll
    | false, w :: ws => some (.report (w :: ws))
    | _, _ => none
  | "run" =>
    match words with
    | [file] => return .run (← readPath? file)
    | _ => none
  | "compare" =>
    guard words.isEmpty
    let alternative ← items.read? "alternative" RankSum.Alternative.ofName? .less
    let method ← items.read? "method" RankSum.Method.ofName? .auto
    let config := { alternative, continuity := items.has "continuity", method }
    return .compare (← sampleOf? items "x") (← sampleOf? items "y") config
      (← items.read? "precision" readPrecision? 2)
  | "export" => some (.exportReports words)
  | "chart" =>
    guard words.isEmpty
    return .chart (← items.read? "output" readPath? "bar_err.svg")
      (← items.read? "data" (fun s => (readPath? s).map some) none)
  | _ => none

/-! ### Requests -/

/-- What the arguments ask for. -/
def Request.parse? (args : List String) : Option Request := do
  let (before, rest) ← scan? programSpecs true args
  guard (before.isValid programSpecs)
  let format ← before.read? "format" Format.ofName? .text
  if before.has "version" then return .version
  match rest with
  | [] => none
  | name :: rest =>
    let specs := (← commandSpecs? name) ++ sharedSpecs
    let (after, _) ← scan? specs false rest
    guard (after.isValid specs)
    let format ← after.read? "format" Format.ofName? format
    return .perform format (before.has "debug" || after.has "debug")
      (← Command.ofItems? name after)

end Campaign
