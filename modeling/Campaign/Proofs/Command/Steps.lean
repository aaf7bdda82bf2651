import Campaign.Command.Program

/-!
# Commands step by step

From the files and the output that it begins with, a part of the program comes to a result, or
fails, and leaves files and an output. What it does is told step by step, in the order in which the
steps are taken: an operation of the console is one step, a loop is as many as it has members. Only
the log is left open.

A command prints and writes only what has been computed: each step that may fail is taken before the
first text is on the output, and the only file is written after all else that may fail. So it does
all that it leads to in a run, or nothing.

* `Comes`: what a part of the program comes to;
* `AllOrNothing`: a part of the program does all that a run gives, or nothing.

## Main statements

* `Comes.bind`, `Comes.fail`: one step after another, and a step that fails;
* `comes_evaluateReports`: nothing is seen of reports while they are evaluated;
* `comes_printEach`: texts that are printed one after another;
* `comes_printReports_ok`, `comes_printReports_error`: reports are printed if all are evaluated;
* `allOrNothing_execute`: every command.
-/

namespace Campaign

/-- From files and an output, a part of the program comes to the result `r`, and leaves files and an
output. Of what is told on the way only events are new, and they are told only if that is wished. -/
def Comes {α : Type} (debug : Bool) (x : ExceptT Failure (StateM Session) α)
    (seen : Workspace × String) (r : Except Failure α) (seen' : Workspace × String) : Prop :=
  ∀ notices, ∃ events : List Event, (debug = false → events = []) ∧
    x.run.run ⟨seen.1, seen.2, notices⟩ = (r, ⟨seen'.1, seen'.2, notices ++ events.map .event⟩)

section

variable {α β : Type} {debug : Bool} {x : ExceptT Failure (StateM Session) α}
  {f : α → ExceptT Failure (StateM Session) β} {seen seen₁ seen₂ : Workspace × String}

/-! ### One step after another -/

theorem session_bind {α β : Type} (x : StateM Session α) (f : α → StateM Session β) (s : Session) :
    (x >>= f).run s = (f (x.run s).1).run (x.run s).2 := rfl

theorem run_bind (x : ExceptT Failure (StateM Session) α)
    (f : α → ExceptT Failure (StateM Session) β) (s : Session) :
    (x >>= f).run.run s =
      match x.run.run s with
      | (.ok a, s') => (f a).run.run s'
      | (.error e, s') => (.error e, s') := by
  rw [ExceptT.run_bind, session_bind]
  rcases x.run.run s with ⟨_ | a, s'⟩
  · rfl
  · rfl

/-- A step that the console takes without a word in the log. -/
theorem Comes.of_run {r : Except Failure α}
    (h : ∀ notices, x.run.run ⟨seen.1, seen.2, notices⟩ = (r, ⟨seen₁.1, seen₁.2, notices⟩)) :
    Comes debug x seen r seen₁ := by
  intro notices
  refine ⟨[], fun _ => rfl, ?_⟩
  rw [h, List.map_nil, List.append_nil]

theorem Comes.bind {a : α} {r : Except Failure β} (hx : Comes debug x seen (.ok a) seen₁)
    (hf : Comes debug (f a) seen₁ r seen₂) : Comes debug (x >>= f) seen r seen₂ := by
  intro notices
  obtain ⟨first, hfirst, hrun⟩ := hx notices
  obtain ⟨second, hsecond, hrun'⟩ := hf (notices ++ first.map .event)
  refine ⟨first ++ second, fun h => by rw [hfirst h, hsecond h, List.append_nil], ?_⟩
  rw [run_bind, hrun, List.map_append, ← List.append_assoc]
  exact hrun'

/-- **What fails ends the program** where it stands. -/
theorem Comes.fail {e : Failure} (hx : Comes debug x seen (.error e) seen₁) :
    Comes debug (x >>= f) seen (.error e) seen₁ := by
  intro notices
  obtain ⟨events, hevents, hrun⟩ := hx notices
  refine ⟨events, hevents, ?_⟩
  rw [run_bind, hrun]

theorem comes_pure (a : α) : Comes debug (pure a) seen (.ok a) seen := .of_run fun _ => rfl

/-- A result that has been computed is taken as it is. -/
theorem comes_lift (r : Except Failure α) :
    Comes debug (liftM r : ExceptT Failure (StateM Session) α) seen r seen := .of_run fun _ => rfl

theorem comes_lift_of_eq {r r' : Except Failure α} (h : r = r') :
    Comes debug (liftM r : ExceptT Failure (StateM Session) α) seen r' seen := h ▸ comes_lift r

end

variable {debug : Bool}

/-! ### The operations of the console -/

section

variable (w : Workspace) (output : String)

theorem comes_print (text : String) :
    Comes debug (Console.print text) (w, output) (.ok ()) (w, output ++ text) :=
  .of_run fun _ => rfl

theorem comes_readFile (file : String) :
    Comes debug (Console.readFile file) (w, output) (.ok ((w.read file).map Contents.toText))
      (w, output) :=
  .of_run fun _ => rfl

/-- An operation of the console as such does not fail. -/
theorem run_lift {α : Type} (x : StateM Session α) (s : Session) :
    (ExceptT.lift x : ExceptT Failure (StateM Session) α).run.run s =
      (.ok (x.run s).1, (x.run s).2) := rfl

theorem writeFile_run (path : String) (contents : Contents) (s : Session) :
    (Console.writeFile path contents : StateM Session (Except FileError Unit)).run s =
      match s.workspace.write path contents with
      | .ok w => (.ok (), { s with workspace := w })
      | .error e => (.error e, s) := rfl

theorem comes_writeFile_ok {path : String} {contents : Contents} {w' : Workspace}
    (h : w.write path contents = .ok w') :
    Comes debug (Console.writeFile path contents) (w, output) (.ok (.ok ())) (w', output) := by
  refine .of_run fun notices => ?_
  refine (run_lift (Console.writeFile path contents) _).trans ?_
  simp only [writeFile_run, h]

/-- A file that cannot be written leaves the others as they were. -/
theorem comes_writeFile_error {path : String} {contents : Contents} {e : FileError}
    (h : w.write path contents = .error e) :
    Comes debug (Console.writeFile path contents) (w, output) (.ok (.error e)) (w, output) := by
  refine .of_run fun notices => ?_
  refine (run_lift (Console.writeFile path contents) _).trans ?_
  simp only [writeFile_run, h]

end

/-! ### Events and texts in order -/

theorem log_run (events : List Event) (s : Session) :
    (events.forM Console.log : ExceptT Failure (StateM Session) Unit).run.run s =
      (.ok (), { s with notices := s.notices ++ events.map .event }) := by
  induction events generalizing s with
  | nil =>
    rw [List.map_nil, List.append_nil]
    rfl
  | cons e events ih =>
    refine (ih { s with notices := s.notices ++ [.event e] }).trans ?_
    simp only [List.map_cons, List.append_assoc, List.singleton_append]

/-- Nothing is seen of events. -/
theorem comes_note (events : Unit → List Event) (seen : Workspace × String) :
    Comes debug (note debug events) seen (.ok ()) seen := by
  cases debug with
  | false => exact comes_pure ()
  | true => exact fun notices => ⟨events (), by simp, log_run (events ()) _⟩

/-- Texts that are printed one after another stand on the output as one. -/
theorem comes_printEach {α : Type} (text : α → String) (items : List α) (w : Workspace)
    (output : String) :
    Comes debug (items.forM fun a => Console.print (text a)) (w, output) (.ok ())
      (w, output ++ String.join (items.map text)) := by
  induction items generalizing output with
  | nil =>
    rw [List.map_nil, String.join_nil, String.append_empty]
    exact comes_pure ()
  | cons a items ih =>
    rw [List.map_cons, String.join_cons, ← String.append_assoc]
    exact (comes_print w output (text a)).bind (ih _)

/-! ### Reports -/

section

variable (tail : Float → Float) (format : Format) (debug : Bool) {reports : List Report}
  (w : Workspace) (output : String)

/-- **Reports are evaluated in order**, and nothing is seen of them. -/
theorem comes_evaluateReports (reports : List Report) (seen : Workspace × String) :
    Comes debug (evaluateReports tail debug reports) seen
      ((Report.evaluateAll tail reports).mapError .report) seen := by
  induction reports with
  | nil => exact comes_pure []
  | cons r reports ih =>
    rw [evaluateReports, List.mapM_cons, Report.evaluateAll, List.mapM_cons]
    unfold Report.evaluateAll at ih
    cases hr : r.evaluate tail with
    | error e => exact ((comes_note _ seen).bind (comes_lift _)).fail
    | ok o =>
      refine Comes.bind ((comes_note _ seen).bind (comes_lift _)) ?_
      cases hall : reports.mapM (Report.evaluate tail) with
      | error e =>
        rw [hall] at ih
        exact ih.fail
      | ok os =>
        rw [hall] at ih
        exact ih.bind (comes_pure (o :: os))

theorem comes_printOutcomes (os : List Outcome) :
    Comes debug (printOutcomes format os) (w, output) (.ok ())
      (w, output ++ (Output.outcomes format os).text) := by
  cases format with
  | text => exact comes_printEach Outcome.text os w output
  | json => exact comes_print w output _
  | csv => exact comes_print w output _

/-- **Reports are printed** once all of them are evaluated. -/
theorem comes_printReports_ok {os : List Outcome} (h : Report.evaluateAll tail reports = .ok os) :
    Comes debug (printReports tail format debug reports) (w, output) (.ok ())
      (w, output ++ (Output.outcomes format os).text) := by
  have hall := comes_evaluateReports tail debug reports (w, output)
  rw [h] at hall
  exact hall.bind (comes_printOutcomes format debug w output os)

theorem comes_printReports_error {e : Report.Error} (h : Report.evaluateAll tail reports = .error e)
    (seen : Workspace × String) :
    Comes debug (printReports tail format debug reports) seen (.error (.report e)) seen := by
  have hall := comes_evaluateReports tail debug reports seen
  rw [h] at hall
  exact hall.fail

theorem comes_printCatalog (reports : List Report) :
    Comes debug (printCatalog format reports) (w, output) (.ok ())
      (w, output ++ (Output.catalog format reports).text) := by
  cases format with
  | text => exact comes_printEach (catalogLine (nameWidth reports)) reports w output
  | json => exact comes_print w output _
  | csv => exact comes_print w output _

end

/-! ### Files -/

section

variable (debug : Bool) (w : Workspace) (output : String)

theorem comes_loadExperiment (file : String) :
    Comes debug (loadExperiment debug file) (w, output)
      (load file ((w.read file).map Contents.toText)) (w, output) := by
  refine (comes_readFile w output file).bind ?_
  cases h : load file ((w.read file).map Contents.toText) with
  | error f => exact (comes_lift _).fail
  | ok e => exact (comes_lift _).bind ((comes_note _ _).bind (comes_pure e))

/-- What a command finds in its file. -/
def Command.contents (w : Workspace) (command : Command) : Except FileError String :=
  match command.source? with
  | some file => (w.read file).map Contents.toText
  | none => .ok ""

theorem comes_findChart (path : String) (data : Option String) :
    Comes debug (findChart debug data) (w, output)
      (chartOf data ((Command.chart path data).contents w)) (w, output) := by
  cases data with
  | none => exact comes_pure _
  | some file =>
    have hload := comes_loadExperiment debug w output file
    change Comes _ _ _ (chartOf (some file) ((w.read file).map Contents.toText)) _
    rw [chartOf]
    cases h : load file ((w.read file).map Contents.toText) with
    | error f =>
      rw [h] at hload
      exact hload.fail
    | ok e =>
      rw [h] at hload
      refine hload.bind ?_
      dsimp only [bind, Except.bind]
      cases e.chart with
      | none => exact comes_lift (.error _)
      | some chart => exact comes_pure chart

end

variable (tail : Float → Float)

/-! ### What commands lead to -/

/-- A command in a run: first what may fail, then the drawing. -/
theorem performIn_eq (format : Format) (w : Workspace) (command : Command) :
    command.performIn tail format w = do
      let effect ← command.perform tail format (command.contents w)
      match effect.drawing with
      | none => return (w, effect.output)
      | some (path, d) =>
        let w ← (w.write path (.drawing d)).mapError (.unwritable path)
        return (w, effect.output) := rfl

section

variable {tail} {w : Workspace} {format : Format} {command : Command}

theorem performIn_of_error {f : Failure}
    (h : command.perform tail format (command.contents w) = .error f) :
    command.performIn tail format w = .error f := by
  rw [performIn_eq, h]
  rfl

theorem performIn_of_output {output : Output}
    (h : command.perform tail format (command.contents w) = .ok ⟨output, none⟩) :
    command.performIn tail format w = .ok (w, output) := by
  rw [performIn_eq, h]
  rfl

theorem performIn_of_drawing {output : Output} {path : String} {d : Drawing}
    (h : command.perform tail format (command.contents w) = .ok ⟨output, some (path, d)⟩) :
    command.performIn tail format w =
      (w.write path (.drawing d)).mapError (.unwritable path) >>= fun w => .ok (w, output) := by
  rw [performIn_eq, h]
  rfl

end

/-! ### Commands step by step -/

/-- A part of the program does all that a run gives: it leaves the files that there are after the
run, and prints its output. Where the run fails it fails with the same, and does nothing. -/
def AllOrNothing (debug : Bool) (x : ExceptT Failure (StateM Session) Unit)
    (seen : Workspace × String) (run : Except Failure (Workspace × Output)) : Prop :=
  match run with
  | .ok (w, output) => Comes debug x seen (.ok ()) (w, seen.2 ++ output.text)
  | .error f => Comes debug x seen (.error f) seen

section

variable {α : Type} {debug : Bool} {x : ExceptT Failure (StateM Session) α}
  {f : α → ExceptT Failure (StateM Session) Unit} {seen : Workspace × String}
  {run : Except Failure (Workspace × Output)}

/-- A step of which nothing is seen may come before. -/
theorem AllOrNothing.bind {a : α} (hx : Comes debug x seen (.ok a) seen)
    (hf : AllOrNothing debug (f a) seen run) : AllOrNothing debug (x >>= f) seen run := by
  cases run with
  | error e => exact Comes.bind hx hf
  | ok result => exact Comes.bind hx hf

/-- A step of which nothing is seen may fail, whatever comes behind it. -/
theorem AllOrNothing.fail {e : Failure} (hx : Comes debug x seen (.error e) seen)
    (hrun : run = .error e) : AllOrNothing debug (x >>= f) seen run := by
  rw [hrun]
  exact Comes.fail hx

end

section

variable {tail} {format : Format} {debug : Bool} {w : Workspace} {printed : String}

/-- Reports are evaluated before the first of them is printed. -/
theorem allOrNothing_printReports {command : Command} {reports : List Report}
    (h : command.perform tail format (command.contents w) = evaluated tail format reports) :
    AllOrNothing debug (printReports tail format debug reports) (w, printed)
      (command.performIn tail format w) := by
  unfold evaluated at h
  cases hall : Report.evaluateAll tail reports with
  | error e =>
    rw [hall] at h
    rw [performIn_of_error h]
    exact comes_printReports_error tail format debug hall (w, printed)
  | ok os =>
    rw [hall] at h
    rw [performIn_of_output h]
    exact comes_printReports_ok tail format debug w printed hall

/-- The file is read, and must hold reports, before they are evaluated. -/
theorem allOrNothing_runExperiment (file : String) :
    AllOrNothing debug (runExperiment tail format debug file) (w, printed)
      ((Command.run file).performIn tail format w) := by
  have hload := comes_loadExperiment debug w printed file
  have hperform : (Command.run file).perform tail format ((Command.run file).contents w) =
      load file ((w.read file).map Contents.toText) >>= fun e =>
        if e.reports.isEmpty then .error (.noReports file) else evaluated tail format e.reports :=
    rfl
  cases h : load file ((w.read file).map Contents.toText) with
  | error f =>
    rw [h] at hload hperform
    exact .fail hload (performIn_of_error hperform)
  | ok e =>
    rw [h] at hload hperform
    change _ = if e.reports.isEmpty = true then _ else _ at hperform
    refine .bind hload ?_
    cases hempty : e.reports.isEmpty with
    | true =>
      rw [hempty] at hperform
      exact .fail (comes_lift (.error _)) (performIn_of_error hperform)
    | false =>
      rw [hempty] at hperform
      exact .bind (comes_note _ _) (allOrNothing_printReports hperform)

/-- The chart is found and laid out before its drawing is written, and the path is printed last. -/
theorem allOrNothing_renderChart (path : String) (data : Option String) :
    AllOrNothing debug (renderChart debug path data) (w, printed)
      ((Command.chart path data).performIn tail format w) := by
  have hfind := comes_findChart debug w printed path data
  have hperform : (Command.chart path data).perform tail format
        ((Command.chart path data).contents w) =
      chartOf data ((Command.chart path data).contents w) >>= fun c =>
        (c.layout >>= fun places => .ok (c.drawPlaces places)).mapError (.chart path) >>= fun d =>
          .ok ⟨.path path, some (path, d)⟩ := rfl
  cases hchart : chartOf data ((Command.chart path data).contents w) with
  | error f =>
    rw [hchart] at hfind hperform
    exact .fail hfind (performIn_of_error hperform)
  | ok c =>
    rw [hchart] at hfind hperform
    refine .bind hfind ?_
    change _ = (c.layout >>= fun places => .ok (c.drawPlaces places)).mapError
      (Failure.chart path) >>= _ at hperform
    cases hlayout : c.layout with
    | error e =>
      rw [hlayout] at hperform
      exact .fail (comes_lift (.error _)) (performIn_of_error hperform)
    | ok places =>
      rw [hlayout] at hperform
      refine .bind (comes_lift (.ok places)) (.bind (comes_note _ _) ?_)
      rw [performIn_of_drawing hperform]
      cases hwrite : w.write path (.drawing (c.drawPlaces places)) with
      | error e =>
        exact (comes_writeFile_error w printed hwrite).bind (Comes.fail (comes_lift (.error _)))
      | ok w' =>
        -- once the file is written nothing is left that may fail
        exact (comes_writeFile_ok w printed hwrite).bind ((comes_lift (.ok ())).bind
          ((comes_note _ _).bind (comes_print w' printed (path ++ "\n"))))

/-- **A command is all or nothing**: step by step it does what it leads to in a run. -/
theorem allOrNothing_execute (command : Command) :
    AllOrNothing debug (command.execute tail format debug) (w, printed)
      (command.performIn tail format w) := by
  cases command with
  | list => exact comes_printCatalog format debug w printed Catalog.reports
  | report names =>
    have hperform : (Command.report names).perform tail format
        ((Command.report names).contents w) = builtIn names >>= evaluated tail format := rfl
    cases hfound : builtIn names with
    | error f =>
      rw [hfound] at hperform
      exact .fail (comes_lift_of_eq hfound) (performIn_of_error hperform)
    | ok reports =>
      rw [hfound] at hperform
      exact .bind (comes_lift_of_eq hfound) (allOrNothing_printReports hperform)
  | reportAll => exact allOrNothing_printReports rfl
  | run file => exact allOrNothing_runExperiment file
  | compare x y config precision => exact allOrNothing_printReports rfl
  | exportReports names =>
    cases names with
    | nil => exact (comes_pure Catalog.reports).bind (comes_print w printed _)
    | cons name names =>
      have hperform : (Command.exportReports (name :: names)).perform tail format
          ((Command.exportReports (name :: names)).contents w) =
        builtIn (name :: names) >>= fun rs => .ok ⟨.experiment (.ofReports rs), none⟩ := rfl
      cases hfound : builtIn (name :: names) with
      | error f =>
        rw [hfound] at hperform
        exact .fail (comes_lift_of_eq hfound) (performIn_of_error hperform)
      | ok reports =>
        rw [hfound] at hperform
        rw [performIn_of_output hperform]
        exact (comes_lift_of_eq hfound).bind (comes_print w printed _)
  | chart path data => exact allOrNothing_renderChart path data

end

end Campaign
