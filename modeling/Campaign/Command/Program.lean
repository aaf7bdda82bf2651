import Campaign.Command.Log
import Campaign.Command.Workspace

/-!
# The program

The program reads files, writes files and prints, one step after another. It is written against any
place where that can be done: the system, or a session that keeps the files and what was printed.
A step that fails ends it. What was printed and written up to there stands, so all depends on the
order of the steps.

* `Console`: where a program reads, writes and prints;
* `printReports`, `printCatalog`, `renderChart`: the parts of the program;
* `Command.execute`, `program`: a command, and the whole program, with the status it ends with;
* `Session`: the files and the printed texts as values.
-/

namespace Campaign

/-- Where a program reads, writes and prints. -/
class Console (m : Type → Type) where
  /-- The contents of a file, or why it cannot be read. -/
  readFile : String → m (Except FileError String)
  /-- Writes a file, or tells why it cannot be written. -/
  writeFile : String → Contents → m (Except FileError Unit)
  print : String → m Unit
  /-- Prints where failures are told. -/
  printError : String → m Unit
  /-- Tells of an event, at the place where failures are told. -/
  log : Event → m Unit

/-- What may fail reads, writes and prints where the rest of the program does. -/
instance {m : Type → Type} [Monad m] [Console m] : Console (ExceptT Failure m) where
  readFile file := ExceptT.lift (Console.readFile file)
  writeFile file contents := ExceptT.lift (Console.writeFile file contents)
  print text := ExceptT.lift (Console.print text)
  printError text := ExceptT.lift (Console.printError text)
  log e := ExceptT.lift (Console.log e)

/-! ### The program -/

/-- What is said when the arguments are not understood. -/
def usage : String :=
  "usage: " ++ programName ++ " [--format text|json|csv] [--debug] COMMAND [ARGUMENT]...\n" ++
    "commands: list, report, run, compare, export, chart\n"

section

variable {m : Type → Type} [Monad m] [Console m] (tail : Float → Float)

/-- Tells of events, if that is wished. -/
def note (debug : Bool) (events : Unit → List Event) : ExceptT Failure m Unit :=
  if debug then (events ()).forM Console.log else pure ()

/-- Evaluates reports one after another, up to the first that has an error. -/
def evaluateReports (debug : Bool) (reports : List Report) : ExceptT Failure m (List Outcome) :=
  reports.mapM fun r => do
    note debug fun _ => r.events tail
    (r.evaluate tail).mapError Failure.report

/-- Prints what reports computed; in text, one after another. A document or a table is one text, which
can always be written. -/
def printOutcomes (format : Format) (outcomes : List Outcome) : ExceptT Failure m Unit :=
  match format with
  | .text => outcomes.forM fun o => Console.print o.text
  | .json => Console.print ((Document.ofOutcomes outcomes).text ++ "\n")
  | .csv => Console.print (Csv.outcomes outcomes)

/-- Evaluates reports and prints what they compute. -/
def printReports (format : Format) (debug : Bool) (reports : List Report) :
    ExceptT Failure m Unit := do
  printOutcomes format (← evaluateReports tail debug reports)

/-- Prints the names and descriptions of reports; in text, one line after another. -/
def printCatalog (format : Format) (reports : List Report) : ExceptT Failure m Unit :=
  match format with
  | .text => reports.forM fun r => Console.print (catalogLine (nameWidth reports) r)
  | .json => Console.print ((Document.ofReports reports).text ++ "\n")
  | .csv => Console.print (Csv.catalog reports)

/-- Reads an experiment file. -/
def loadExperiment (debug : Bool) (file : String) : ExceptT Failure m Experiment := do
  let e ← load file (← Console.readFile file)
  note debug fun _ => [.loaded file e.reports.length e.chart.isSome]
  return e

/-- Evaluates the reports of an experiment file and prints what they compute. -/
def runExperiment (format : Format) (debug : Bool) (file : String) : ExceptT Failure m Unit := do
  let e ← loadExperiment debug file
  if e.reports.isEmpty then
    throw (.noReports file)
  note debug fun _ => [.running file e.reports.length]
  printReports tail format debug e.reports

/-- The chart of a file, or the example. -/
def findChart (debug : Bool) (data : Option String) : ExceptT Failure m Chart := do
  match data with
  | none => return Catalog.exampleChart
  | some file =>
    match (← loadExperiment debug file).chart with
    | some chart => return chart
    | none => throw (.noChart file)

/-- Draws the chart of a file, or the example, into a file, and prints where that is. -/
def renderChart (debug : Bool) (output : String) (data : Option String) :
    ExceptT Failure m Unit := do
  let chart ← findChart debug data
  let places ← chart.layout.mapError (Failure.chart output)
  note debug fun _ => [.rendering places.length (Chart.rangeOf places)]
  let written ← Console.writeFile output (.drawing (chart.drawPlaces places))
  written.mapError (Failure.unwritable output)
  note debug fun _ => [.written output chart.bars.length]
  Console.print (output ++ "\n")

/-- Performs a command. -/
def Command.execute (format : Format) (debug : Bool) : Command → ExceptT Failure m Unit
  | list => printCatalog format Catalog.reports
  | report names => do printReports tail format debug (← builtIn names)
  | reportAll => printReports tail format debug Catalog.reports
  | run file => runExperiment tail format debug file
  | compare x y config precision =>
    printReports tail format debug [adHoc x y config precision]
  | exportReports names => do
    let reports ← if names.isEmpty then pure Catalog.reports else builtIn names
    Console.print (Experiment.ofReports reports).text
  | chart output data => renderChart debug output data

/-- The program: reads its arguments, does what they ask for, and tells how that went. -/
def program (args : List String) : m UInt32 := do
  match Request.parse? args with
  | none =>
    Console.printError usage
    return 2
  | some .version =>
    Console.print Output.version.text
    return 0
  | some (.perform format debug command) =>
    match ← (command.execute tail format debug).run with
    | .ok () => return 0
    | .error f =>
      Console.printError f.text
      return 1

end

/-! ### Sessions -/

/-- What is told beside the output: a line of the log, of which only the event is known, or a
text. -/
inductive Notice where
  | event (e : Event)
  | text (s : String)

/-- A working directory and what has been printed. -/
structure Session where
  workspace : Workspace
  output : String := ""
  /-- What was told beside the output, in order. -/
  notices : List Notice := []

instance : Console (StateM Session) where
  readFile path := fun s => ((s.workspace.read path).map Contents.toText, s)
  writeFile path contents := fun s =>
    match s.workspace.write path contents with
    | .ok w => (.ok (), { s with workspace := w })
    | .error e => (.error e, s)
  print text := fun s => ((), { s with output := s.output ++ text })
  printError text := fun s => ((), { s with notices := s.notices ++ [.text text] })
  log e := fun s => ((), { s with notices := s.notices ++ [.event e] })

/-- A session of the program in a working directory: the status and what there is afterwards. -/
def Workspace.session (tail : Float → Float) (w : Workspace) (args : List String) :
    UInt32 × Session :=
  (program tail args : StateM Session UInt32).run { workspace := w }

end Campaign
