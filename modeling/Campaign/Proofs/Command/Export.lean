import Campaign.Proofs.Command.Arguments
import Campaign.Proofs.Command.Session
import Campaign.Proofs.Experiment.RoundTrip

/-!
# Exported reports

The built-in reports have no fault, so an export of some of them is an experiment file that is read
back as it was. Running that file evaluates the same reports as asking for them by name, and a
session that evaluates reports depends on nothing else.

* `Command.ofExported`: the command that evaluates what an export holds.

## Main statements

* `Catalog.validate_reports`: no built-in report has a fault;
* `exists_exported`: what an export holds, and what the other command evaluates;
* `session_run_exported`: running an exported file.
-/

namespace Campaign

open Arguments

/-- The command that evaluates what an export of reports holds: those with the given names, or all
if there are none. -/
def Command.ofExported : List String → Command
  | [] => .reportAll
  | names => .report names

/-- What stands behind `report` to ask for reports by name, or for all. -/
def reportWords : List String → List String
  | [] => ["--all"]
  | names => names

/-! ### The built-in reports -/

namespace Catalog

theorem validate_reports : ∀ r ∈ reports, r.validate = .ok () := by decide +kernel

theorem head?_of_mem_names : ∀ name ∈ names, name.toList.head? ≠ some '-' := by decide +kernel

theorem exists_find? {name : String} (h : name ∈ names) : ∃ r, find? name = some r := by
  obtain ⟨r, hr, rfl⟩ := List.mem_map.1 h
  exact Option.isSome_iff_exists.1 (List.find?_isSome.2 ⟨r, hr, decide_eq_true rfl⟩)

theorem mem_of_forall₂ {names : List String} {found : List Report}
    (h : List.Forall₂ (fun name r => find? name = some r) names found) :
    ∀ r ∈ found, r ∈ reports := by
  induction h with
  | nil => simp
  | cons hr _ ih => exact List.forall_mem_cons.2 ⟨List.mem_of_find?_eq_some hr, ih⟩

end Catalog

/-! ### What is exported -/

theorem parse_exported {reports : List Report} (hne : reports ≠ [])
    (hmem : ∀ r ∈ reports, r ∈ Catalog.reports) :
    Experiment.parse (Experiment.ofReports reports).text = .ok (.ofReports reports) := by
  have hvalid : (Experiment.ofReports reports).validate = .ok () :=
    (Experiment.validate_eq_ok_iff _).2
      ⟨.inl hne, fun r hr => Catalog.validate_reports r (hmem r hr), by simp [Experiment.ofReports]⟩
  exact Experiment.parse_of_decode (Experiment.decode_text hvalid) hvalid

/-- **An export** holds the reports that the other command evaluates. -/
theorem exists_exported (tail : Float → Float) {names : List String}
    (hnames : ∀ name ∈ names, name ∈ Catalog.names) :
    ∃ reports, reports ≠ [] ∧ (∀ r ∈ reports, r ∈ Catalog.reports) ∧
      (∀ w, (Command.ofExported names).Requests w reports) ∧
      ∀ format contents, (Command.exportReports names).perform tail format contents =
        .ok ⟨.experiment (.ofReports reports), none⟩ := by
  cases names with
  | nil => exact ⟨Catalog.reports, by decide, fun r hr => hr, fun w => .reportAll, fun _ _ => rfl⟩
  | cons name names =>
    obtain ⟨reports, hbuiltIn⟩ : ∃ reports, builtIn (name :: names) = .ok reports := by
      rw [builtIn_eq_mapM]
      refine exists_mapM_eq_ok_iff.2 fun n hn => ?_
      obtain ⟨r, hr⟩ := Catalog.exists_find? (hnames n hn)
      exact ⟨r, builtInNamed_eq_ok_iff.2 hr⟩
    have hfound := builtIn_eq_ok_iff.1 hbuiltIn
    refine ⟨reports, ?_, Catalog.mem_of_forall₂ hfound, fun w => .report hfound,
      fun format contents => ?_⟩
    · rintro rfl
      cases hfound
    · rw [Command.perform, hbuiltIn]
      · rfl
      · simp

section

variable {tail : Float → Float} {names : List String} {w w' : Workspace}
  {exportArgs runArgs reportArgs : List String} {file : String} {exportFormat format : Format}
  {exportDebug runDebug reportDebug : Bool}

/-- The file that a session exports, and what the other two sessions evaluate. -/
theorem session_exported (hnames : ∀ name ∈ names, name ∈ Catalog.names)
    (hexport : Request.parse? exportArgs =
      some (.perform exportFormat exportDebug (.exportReports names))) :
    (w.session tail exportArgs).1 = 0 ∧
      ∃ reports, (∀ w, (Command.ofExported names).Requests w reports) ∧
        ∀ w', w'.read file = .ok (.text (w.session tail exportArgs).2.output) →
          (Command.run file).Requests w' reports := by
  obtain ⟨reports, hne, hmem, hrequests, hperform⟩ := exists_exported tail hnames
  have hends := session_of_performIn tail w hexport
  rw [performIn_of_output (hperform exportFormat _)] at hends
  refine ⟨hends.status, reports, hrequests, fun w' hread => ?_⟩
  rw [hends.seen.2] at hread
  exact .run hread (parse_exported hne hmem) hne

/-- Sessions that evaluate the same reports end with one status and one output. -/
theorem session_congr {args args' : List String} {debug debug' : Bool} {command command' : Command}
    {reports : List Report} (hparse : Request.parse? args = some (.perform format debug command))
    (hparse' : Request.parse? args' = some (.perform format debug' command'))
    (h : command.Requests w reports) (h' : command'.Requests w' reports) :
    (w.session tail args).1 = (w'.session tail args').1 ∧
      (w.session tail args).2.output = (w'.session tail args').2.output := by
  have hends := session_of_requests tail hparse h
  have hends' := session_of_requests tail hparse' h'
  cases hall : Report.evaluateAll tail reports with
  | error e =>
    rw [hall] at hends hends'
    exact ⟨hends.status.trans hends'.status.symm, hends.seen.2.trans hends'.seen.2.symm⟩
  | ok os =>
    rw [hall] at hends hends'
    exact ⟨hends.status.trans hends'.status.symm, hends.seen.2.trans hends'.seen.2.symm⟩

end

/-! ### Plain arguments -/

theorem parse?_exported {names : List String} (hnames : ∀ name ∈ names, name ∈ Catalog.names)
    (f : Option Format) :
    Request.parse? (formatArguments f ++ "export" :: names) =
        some (.perform (f.getD .text) false (.exportReports names)) ∧
      Request.parse? (formatArguments f ++ "report" :: reportWords names) =
        some (.perform (f.getD .text) false (.ofExported names)) := by
  have hwords : ∀ name ∈ names, name.toList.head? ≠ some '-' :=
    fun name hname => Catalog.head?_of_mem_names name (hnames name hname)
  constructor
  · refine parse?_words f (by decide) rfl hwords ?_
    simp [Command.ofItems?]
  · cases names with
    | nil => rcases f with _ | _ | _ | _ <;> decide +kernel
    | cons name names =>
      refine parse?_words f (by decide) rfl hwords ?_
      change Command.ofItems? "report" ((name :: names).map .word) = _
      rw [Command.ofItems?, words_map_word, has_map_word]
      rfl

theorem parse?_run (f : Option Format) {file : String} (hne : file ≠ "")
    (hfile : file.toList.head? ≠ some '-') :
    Request.parse? (formatArguments f ++ ["run", file]) =
      some (.perform (f.getD .text) false (.run file)) := by
  have hwords : Items.words [.word file] = [file] := words_map_word [file]
  have hcommand : Command.ofItems? "run" ([file].map .word) = some (.run file) := by
    simp [Command.ofItems?, readPath?, hwords, hne]
  exact parse?_words f (by decide) rfl (by simpa using hfile) hcommand

/-! ### Running an exported file -/

/-- **Running an exported file** has the status and the output of asking for the reports
themselves: those with any built-in names, in any order and as often as wished, or all of them. How
the arguments of the three sessions are written makes no difference, as long as the two that
evaluate ask for one format; written plainly, they are understood. -/
theorem session_run_exported (tail : Float → Float) {names : List String}
    (hnames : ∀ name ∈ names, name ∈ Catalog.names) :
    (∀ (exportArgs runArgs reportArgs : List String) (file : String)
        (exportFormat format : Format) (exportDebug runDebug reportDebug : Bool),
      Request.parse? exportArgs =
        some (.perform exportFormat exportDebug (.exportReports names)) →
      Request.parse? runArgs = some (.perform format runDebug (.run file)) →
      Request.parse? reportArgs = some (.perform format reportDebug (.ofExported names)) →
      ∀ w w' w'' : Workspace,
        w'.read file = .ok (.text (w.session tail exportArgs).2.output) →
        (w.session tail exportArgs).1 = 0 ∧
          (w'.session tail runArgs).1 = (w''.session tail reportArgs).1 ∧
          (w'.session tail runArgs).2.output = (w''.session tail reportArgs).2.output) ∧
    ∀ f : Option Format,
      Request.parse? (formatArguments f ++ "export" :: names) =
        some (.perform (f.getD .text) false (.exportReports names)) ∧
      Request.parse? (formatArguments f ++ "report" :: reportWords names) =
        some (.perform (f.getD .text) false (.ofExported names)) ∧
      ∀ file : String, file ≠ "" → file.toList.head? ≠ some '-' →
        Request.parse? (formatArguments f ++ ["run", file]) =
          some (.perform (f.getD .text) false (.run file)) := by
  constructor
  · intro exportArgs runArgs reportArgs file exportFormat format exportDebug runDebug reportDebug
      hexport hrun hreport w w' w'' hread
    obtain ⟨hzero, reports, hrequests, hfile⟩ := session_exported hnames hexport
    exact ⟨hzero, session_congr hrun hreport (hfile w' hread) (hrequests w'')⟩
  · intro f
    obtain ⟨hexport, hreport⟩ := parse?_exported hnames f
    exact ⟨hexport, hreport, fun file hne hfile => parse?_run f hne hfile⟩

/-- Two reports, one of them twice, exported to a file that is then run. -/
theorem session_run_exported_of_repeated :
    (∀ name ∈ ["coverage", "bug", "coverage"], name ∈ Catalog.names) ∧
      ∀ w : Workspace,
        let exported := w.session RankSum.normalUpperTail ["export", "coverage", "bug", "coverage"]
        exported.1 = 0 ∧
          ((w.put ["exported.toml"] (.text exported.2.output)).session RankSum.normalUpperTail
              ["--format", "json", "run", "exported.toml"]).2.output =
            (w.session RankSum.normalUpperTail
              ["--format", "json", "report", "coverage", "bug", "coverage"]).2.output := by
  have hnames : ∀ name ∈ ["coverage", "bug", "coverage"], name ∈ Catalog.names := by
    decide +kernel
  obtain ⟨hrerun, hplain⟩ := session_run_exported RankSum.normalUpperTail hnames
  obtain ⟨hexport, -, -⟩ := hplain none
  obtain ⟨-, hreport, hrun⟩ := hplain (some .json)
  refine ⟨hnames, fun w => ?_⟩
  have hread : ∀ contents, (w.put ["exported.toml"] contents).read "exported.toml" = .ok contents :=
    fun contents => w.read_put contents (by decide) (by decide) (by decide) (by decide)
  obtain ⟨hzero, -, houtput⟩ := hrerun _ _ _ "exported.toml" _ _ _ _ _ hexport
    (hrun "exported.toml" (by decide) (by decide)) hreport w _ w
    (hread _)
  exact ⟨hzero, houtput⟩

end Campaign
