import Campaign.Proofs.Command.Steps
import Campaign.Proofs.Report.Finite
import Campaign.RankSum.NormalTail

/-!
# Sessions are all or nothing

A session performs one command, and that does all that it leads to, or nothing. So a session that
fails leaves the output empty and the files as they were. What a command leads to is told from the
names that are looked up and from the reports that are evaluated.

* `Workspace.FailsWith`, `Workspace.Prints`: how a session ends;
* `Command.names`: the names that a command looks up;
* `Command.Requests`: the reports that a command evaluates, once they have been found.

## Main statements

* `session_of_performIn`, `session_eq`: a session prints what a run gives;
* `perform_of_unknown`, `session_of_requests`: names that are unknown, and reports;
* `exists_requests`: a command that evaluates reports and does not fail has found them;
* `session_allOrNothing`: every session.
-/

namespace Campaign

variable (tail : Float → Float)

/-! ### Sessions and runs -/

/-- A session fails: behind its log it tells of the failure, nothing is on the output, and the files
are as they were. -/
def Workspace.FailsWith (w : Workspace) (args : List String) (debug : Bool) (f : Failure) : Prop :=
  ∃ log : List Event, (debug = false → log = []) ∧
    w.session tail args = (1, ⟨w, "", log.map .event ++ [.text f.text]⟩)

/-- A session succeeds: it leaves files, a text on the output, and nothing beside it but a log. -/
def Workspace.Prints (w : Workspace) (args : List String) (debug : Bool) (w' : Workspace)
    (text : String) : Prop :=
  ∃ log : List Event, (debug = false → log = []) ∧
    w.session tail args = (0, ⟨w', text, log.map .event⟩)

/-- What an ending leaves on the output. -/
def Ending.output : Ending → String
  | success output => output.text
  | _ => ""

section

variable {tail} {w w' : Workspace} {args : List String} {debug : Bool} {f : Failure} {text : String}

theorem Workspace.FailsWith.status (h : w.FailsWith tail args debug f) :
    (w.session tail args).1 = 1 := by
  obtain ⟨log, -, hsession⟩ := h
  rw [hsession]

theorem Workspace.FailsWith.seen (h : w.FailsWith tail args debug f) :
    (w.session tail args).2.workspace = w ∧ (w.session tail args).2.output = "" := by
  obtain ⟨log, -, hsession⟩ := h
  rw [hsession]
  exact ⟨rfl, rfl⟩

theorem Workspace.Prints.status (h : w.Prints tail args debug w' text) :
    (w.session tail args).1 = 0 := by
  obtain ⟨log, -, hsession⟩ := h
  rw [hsession]

theorem Workspace.Prints.seen (h : w.Prints tail args debug w' text) :
    (w.session tail args).2.workspace = w' ∧ (w.session tail args).2.output = text := by
  obtain ⟨log, -, hsession⟩ := h
  rw [hsession]
  exact ⟨rfl, rfl⟩

end

section

variable {tail} {w : Workspace} {args : List String} {format : Format} {debug : Bool}
  {command : Command}

theorem session_of_execute {r : Except Failure Unit} {w' : Workspace} {text : String}
    (hparse : Request.parse? args = some (.perform format debug command))
    (h : Comes debug (command.execute tail format debug) (w, "") r (w', text)) :
    ∃ log : List Event, (debug = false → log = []) ∧
      w.session tail args =
        match r with
        | .ok () => (0, ⟨w', text, log.map .event⟩)
        | .error f => (1, ⟨w', text, log.map .event ++ [.text f.text]⟩) := by
  obtain ⟨log, hlog, hrun⟩ := h []
  refine ⟨log, hlog, ?_⟩
  rw [Workspace.session, program, hparse]
  dsimp only
  rw [session_bind, hrun]
  cases r with
  | error f => rfl
  | ok result => rfl

/-- **A session that performs a command** prints what that leads to, or tells why it failed. -/
theorem session_of_performIn (tail : Float → Float) (w : Workspace)
    (hparse : Request.parse? args = some (.perform format debug command)) :
    match command.performIn tail format w with
    | .ok (w', output) => w.Prints tail args debug w' output.text
    | .error f => w.FailsWith tail args debug f := by
  have hexecute : AllOrNothing debug (command.execute tail format debug) (w, "")
      (command.performIn tail format w) := allOrNothing_execute command
  cases h : command.performIn tail format w with
  | error f =>
    rw [h] at hexecute
    exact session_of_execute hparse hexecute
  | ok result =>
    obtain ⟨w', output⟩ := result
    rw [h] at hexecute
    have hexecute : Comes _ _ _ _ (w', "" ++ output.text) := hexecute
    rw [String.empty_append] at hexecute
    exact session_of_execute hparse hexecute

/-- **A session** ends as a run, with the same files, and prints what that gives. -/
theorem session_eq (tail : Float → Float) (w : Workspace) (args : List String) :
    (w.session tail args).1.toNat = (w.run tail args).2.status ∧
      (w.session tail args).2.workspace = (w.run tail args).1 ∧
      (w.session tail args).2.output = (w.run tail args).2.output := by
  cases hparse : Request.parse? args with
  | none =>
    unfold Workspace.session Workspace.run program
    rw [hparse]
    exact ⟨rfl, rfl, rfl⟩
  | some request =>
    cases request with
    | version =>
      unfold Workspace.session Workspace.run program
      rw [hparse]
      exact ⟨rfl, rfl, String.empty_append⟩
    | perform format debug command =>
      have hends := session_of_performIn tail w hparse
      rw [Workspace.run, hparse]
      dsimp only
      cases h : command.performIn tail format w with
      | error f =>
        rw [h] at hends
        exact ⟨congrArg UInt32.toNat hends.status, hends.seen⟩
      | ok result =>
        rw [h] at hends
        exact ⟨congrArg UInt32.toNat hends.status, hends.seen⟩

/-- A run that does not succeed leaves the files as they were. -/
theorem run_of_status_ne_zero (h : (w.run tail args).2.status ≠ 0) :
    (w.run tail args).1 = w ∧ (w.run tail args).2.output = "" := by
  unfold Workspace.run at *
  cases hparse : Request.parse? args with
  | none => exact ⟨rfl, rfl⟩
  | some request =>
    rw [hparse] at h
    cases request with
    | version => exact absurd rfl h
    | perform format debug command =>
      dsimp only at h ⊢
      cases hperform : command.performIn tail format w with
      | error f => exact ⟨rfl, rfl⟩
      | ok result =>
        rw [hperform] at h
        exact absurd rfl h

end

/-! ### Names -/

/-- The names that a command looks up. -/
def Command.names : Command → List String
  | report names => names
  | exportReports names => names
  | _ => []

/-- The report with a name, or a failure with the name. -/
def builtInNamed (name : String) : Except Failure Report :=
  match Catalog.find? name with
  | none => .error (.unknownReport name)
  | some r => .ok r

theorem builtInNamed_eq_ok_iff {name : String} {r : Report} :
    builtInNamed name = .ok r ↔ Catalog.find? name = some r := by
  unfold builtInNamed
  cases Catalog.find? name <;> simp

theorem builtIn_eq_mapM (names : List String) : builtIn names = names.mapM builtInNamed := by
  induction names with
  | nil => rfl
  | cons name names ih =>
    rw [builtIn, ih, List.mapM_cons, builtInNamed]
    cases Catalog.find? name with
    | none => rfl
    | some r => cases names.mapM builtInNamed <;> rfl

theorem builtIn_eq_ok_iff {names : List String} {reports : List Report} :
    builtIn names = .ok reports ↔
      List.Forall₂ (fun name r => Catalog.find? name = some r) names reports := by
  rw [builtIn_eq_mapM, mapM_eq_ok_iff]
  simp only [builtInNamed_eq_ok_iff]

theorem builtIn_of_unknown {before after : List String} {name : String}
    (hbefore : ∀ n ∈ before, (Catalog.find? n).isSome = true) (h : Catalog.find? name = none) :
    builtIn (before ++ name :: after) = .error (.unknownReport name) := by
  rw [builtIn_eq_mapM, mapM_eq_error_iff]
  refine ⟨before, name, after, rfl, fun n hn => ?_, by rw [builtInNamed, h]⟩
  obtain ⟨r, hr⟩ := Option.isSome_iff_exists.1 (hbefore n hn)
  exact ⟨r, builtInNamed_eq_ok_iff.2 hr⟩

/-- **The first unknown name** is what a command fails with. -/
theorem perform_of_unknown {command : Command} {before after : List String} {name : String}
    (hnames : command.names = before ++ name :: after)
    (hbefore : ∀ n ∈ before, (Catalog.find? n).isSome = true) (h : Catalog.find? name = none)
    (format : Format) (contents : Except FileError String) :
    command.perform tail format contents = .error (.unknownReport name) := by
  have hbuiltIn : builtIn (before ++ name :: after) = .error (.unknownReport name) :=
    builtIn_of_unknown hbefore h
  have hnone : [] ≠ before ++ name :: after := by simp
  cases command with
  | report names =>
    obtain rfl : names = before ++ name :: after := hnames
    rw [Command.perform, hbuiltIn]
    rfl
  | exportReports names =>
    obtain rfl : names = before ++ name :: after := hnames
    obtain ⟨first, others, hcons⟩ := List.exists_cons_of_ne_nil hnone.symm
    rw [hcons] at hbuiltIn ⊢
    rw [Command.perform, hbuiltIn]
    · rfl
    · simp
  | list => exact absurd hnames hnone
  | reportAll => exact absurd hnames hnone
  | run file => exact absurd hnames hnone
  | compare x y config precision => exact absurd hnames hnone
  | chart output data => exact absurd hnames hnone

/-! ### Reports -/

/-- The reports that a command evaluates, once their names are known or their file has been
loaded. -/
inductive Command.Requests (w : Workspace) : Command → List Report → Prop
  | report {names : List String} {reports : List Report}
      (hfound : List.Forall₂ (fun name r => Catalog.find? name = some r) names reports) :
      Requests w (.report names) reports
  | reportAll : Requests w .reportAll Catalog.reports
  | run {file : String} {contents : Contents} {e : Experiment}
      (hread : w.read file = .ok contents) (hparse : Experiment.parse contents.toText = .ok e)
      (hreports : e.reports ≠ []) : Requests w (.run file) e.reports
  | compare {x y : List Float} {config : RankSum.Config} {precision : ℕ} :
      Requests w (.compare x y config precision) [adHoc x y config precision]

theorem perform_of_requests {w : Workspace} {command : Command} {reports : List Report}
    (h : command.Requests w reports) (format : Format) :
    command.perform tail format (command.contents w) = evaluated tail format reports := by
  cases h with
  | report hfound =>
    rw [Command.perform, builtIn_eq_ok_iff.2 hfound]
    rfl
  | reportAll => rfl
  | run hread hparse hreports =>
    rename_i file contents e
    have hcontents : (Command.run file).contents w = .ok contents.toText := by
      change (w.read file).map Contents.toText = _
      rw [hread]
      rfl
    have hload : load file (.ok contents.toText) = .ok e := by
      rw [load, hparse]
      rfl
    have hempty : e.reports.isEmpty = false := by simpa using hreports
    rw [hcontents, Command.perform, hload]
    change (if e.reports.isEmpty = true then _ else _) = _
    rw [hempty]
    rfl
  | compare => rfl

/-- Whether a command evaluates reports. -/
def Command.evaluates : Command → Bool
  | report _ | reportAll | run _ | compare .. => true
  | _ => false

/-- A command that evaluates reports and does not fail has found them. -/
theorem exists_requests {w : Workspace} {command : Command} {format : Format} {effect : Effect}
    (hcommand : command.evaluates = true)
    (h : command.perform tail format (command.contents w) = .ok effect) :
    ∃ reports, command.Requests w reports := by
  cases command with
  | report names =>
    rw [Command.perform] at h
    cases hbuiltIn : builtIn names with
    | error f =>
      rw [hbuiltIn] at h
      cases h
    | ok reports => exact ⟨reports, .report (builtIn_eq_ok_iff.1 hbuiltIn)⟩
  | reportAll => exact ⟨_, .reportAll⟩
  | run file =>
    have hcontents : (Command.run file).contents w = (w.read file).map Contents.toText := rfl
    rw [hcontents, Command.perform] at h
    cases hread : w.read file with
    | error e =>
      rw [hread] at h
      cases h
    | ok contents =>
      rw [hread] at h
      cases hparse : Experiment.parse contents.toText with
      | error e =>
        simp only [Except.map, load, hparse] at h
        cases h
      | ok e =>
        simp only [Except.map, load, hparse] at h
        refine ⟨e.reports, .run hread hparse fun hreports => ?_⟩
        change (if e.reports.isEmpty = true then _ else _) = _ at h
        rw [hreports] at h
        cases h
  | compare => exact ⟨_, .compare⟩
  | list => cases hcommand
  | exportReports names => cases hcommand
  | chart output data => cases hcommand

section

variable {tail} {w : Workspace} {args : List String} {format : Format} {debug : Bool}
  {command : Command} {reports : List Report}

/-- **A session that evaluates reports** prints their outcomes, or tells the first error. -/
theorem session_of_requests (tail : Float → Float)
    (hparse : Request.parse? args = some (.perform format debug command))
    (h : command.Requests w reports) :
    match Report.evaluateAll tail reports with
    | .ok os => w.Prints tail args debug w (Output.outcomes format os).text
    | .error e => w.FailsWith tail args debug (.report e) := by
  have hperform := perform_of_requests tail h format
  have hsession := session_of_performIn tail w hparse
  unfold evaluated at hperform
  cases hall : Report.evaluateAll tail reports with
  | error e =>
    rw [hall] at hperform
    rw [performIn_of_error hperform] at hsession
    exact hsession
  | ok os =>
    rw [hall] at hperform
    rw [performIn_of_output hperform] at hsession
    exact hsession

/-- A session that evaluates reports fails exactly if one of them has an error. -/
theorem session_ne_zero_iff (tail : Float → Float)
    (hparse : Request.parse? args = some (.perform format debug command))
    (h : command.Requests w reports) :
    (w.session tail args).1 ≠ 0 ↔ ∃ r ∈ reports, ∃ e, r.evaluate tail = .error e := by
  have hends := session_of_requests tail hparse h
  cases hall : Report.evaluateAll tail reports with
  | error e =>
    rw [hall] at hends
    obtain ⟨before, r, after, rfl, -, he⟩ := mapM_eq_error_iff.1 hall
    rw [hends.status]
    exact ⟨fun _ => ⟨r, by simp, e, he⟩, fun _ => by decide⟩
  | ok os =>
    rw [hall] at hends
    rw [hends.status]
    refine ⟨fun hstatus => absurd rfl hstatus, ?_⟩
    rintro ⟨r, hr, e, he⟩
    obtain ⟨o, ho⟩ := exists_mapM_eq_ok_iff.1 ⟨os, hall⟩ r hr
    cases he.symm.trans ho

end

/-! ### Every session -/

/-- **Every session is all or nothing.** If it fails, nothing is on the output and the files are as
they were. It fails with the first name that is unknown. Once the reports of a command have been
found, it fails exactly if one of them has an error, and then with the first. If a command that
evaluates reports does not fail, it has found them, and in text it prints what each of them gives,
in order. -/
theorem session_allOrNothing (tail : Float → Float) (w : Workspace) (args : List String) :
    ((w.session tail args).1 ≠ 0 →
      (w.session tail args).2.output = "" ∧ (w.session tail args).2.workspace = w) ∧
    ∀ format debug command, Request.parse? args = some (.perform format debug command) →
      (∀ before name after, command.names = before ++ name :: after →
        (∀ n ∈ before, (Catalog.find? n).isSome = true) → Catalog.find? name = none →
        w.FailsWith tail args debug (.unknownReport name)) ∧
      (∀ reports, command.Requests w reports →
        ((w.session tail args).1 ≠ 0 ↔ ∃ r ∈ reports, ∃ e, r.evaluate tail = .error e) ∧
        ∀ before r after e, reports = before ++ r :: after →
          (∀ b ∈ before, ∃ o, b.evaluate tail = .ok o) → r.evaluate tail = .error e →
          w.FailsWith tail args debug (.report e)) ∧
      ((w.session tail args).1 = 0 → command.evaluates = true → format = .text →
        ∃ reports os, command.Requests w reports ∧
          List.Forall₂ (fun r o => r.evaluate tail = .ok o) reports os ∧
          (w.session tail args).2.output = String.join (os.map (·.text))) := by
  constructor
  · intro hstatus
    obtain ⟨hnat, hfiles, hprinted⟩ := session_eq tail w args
    have hrun : (w.run tail args).2.status ≠ 0 := by
      intro hzero
      rw [hzero] at hnat
      exact hstatus (UInt32.toNat_inj.1 hnat)
    obtain ⟨hsame, hempty⟩ := run_of_status_ne_zero hrun
    exact ⟨hprinted.trans hempty, hfiles.trans hsame⟩
  intro format debug command hparse
  have hends := session_of_performIn tail w hparse
  refine ⟨?_, fun reports hrequests => ⟨session_ne_zero_iff tail hparse hrequests, ?_⟩, ?_⟩
  · intro before name after hnames hbefore hunknown
    have hperform := perform_of_unknown tail hnames hbefore hunknown format (command.contents w)
    rw [performIn_of_error hperform] at hends
    exact hends
  · intro before r after e hreports hbefore he
    have hall : Report.evaluateAll tail reports = .error e :=
      mapM_eq_error_iff.2 ⟨before, r, after, hreports, hbefore, he⟩
    have hends := session_of_requests tail hparse hrequests
    rw [hall] at hends
    exact hends
  · rintro hstatus hcommand rfl
    obtain ⟨reports, hrequests⟩ : ∃ reports, command.Requests w reports := by
      cases hperform : command.perform tail .text (command.contents w) with
      | error f =>
        rw [performIn_of_error hperform] at hends
        exact absurd (hstatus.symm.trans hends.status) (by decide)
      | ok effect => exact exists_requests tail hcommand hperform
    have hends := session_of_requests tail hparse hrequests
    cases hall : Report.evaluateAll tail reports with
    | error e =>
      rw [hall] at hends
      exact absurd (hstatus.symm.trans hends.status) (by decide)
    | ok os =>
      rw [hall] at hends
      exact ⟨reports, os, hrequests, mapM_eq_ok_iff.1 hall, hends.seen.2⟩

/-- A name that there is not behind one that there is, and the same report twice. -/
theorem session_allOrNothing_of_bytecodeNum :
    (⟨[]⟩ : Workspace).session RankSum.normalUpperTail ["report", "bytecode-num", "nameless"] =
        (1, ⟨⟨[]⟩, "", [.text (Failure.unknownReport "nameless").text]⟩) ∧
      ∃ o : Outcome, Catalog.bytecodeNum.evaluate RankSum.normalUpperTail = .ok o ∧
        ((⟨[]⟩ : Workspace).session RankSum.normalUpperTail
          ["report", "bytecode-num", "bytecode-num"]).2.output = o.text ++ o.text := by
  have hfind : Catalog.find? "bytecode-num" = some Catalog.bytecodeNum := by decide +kernel
  constructor
  · have hparse : Request.parse? ["report", "bytecode-num", "nameless"] =
        some (.perform .text false (.report ["bytecode-num", "nameless"])) := by decide +kernel
    have hknown : ∀ n ∈ ["bytecode-num"], (Catalog.find? n).isSome = true := by decide +kernel
    have hunknown : Catalog.find? "nameless" = none := by decide +kernel
    obtain ⟨log, hlog, hsession⟩ := ((session_allOrNothing RankSum.normalUpperTail ⟨[]⟩
      ["report", "bytecode-num", "nameless"]).2 .text false _ hparse).1
      ["bytecode-num"] "nameless" [] rfl hknown hunknown
    rwa [hlog rfl] at hsession
  · have hparse : Request.parse? ["report", "bytecode-num", "bytecode-num"] =
        some (.perform .text false (.report ["bytecode-num", "bytecode-num"])) := by
      decide +kernel
    obtain ⟨-, hreports, htext⟩ := (session_allOrNothing RankSum.normalUpperTail ⟨[]⟩
      ["report", "bytecode-num", "bytecode-num"]).2 .text false _ hparse
    have hfound : List.Forall₂ (fun name r => Catalog.find? name = some r)
        ["bytecode-num", "bytecode-num"] [Catalog.bytecodeNum, Catalog.bytecodeNum] :=
      .cons hfind (.cons hfind .nil)
    -- samples of five values, none of which has all its values equal
    have hvalid : Catalog.bytecodeNum.IsValid :=
      (Report.validate_eq_ok_iff _).1 (by decide +kernel)
    have hlength : ∀ s ∈ Catalog.bytecodeNum.samples, s.values.length ≤ 5 := by decide +kernel
    have hequal : ∀ x ∈ Catalog.bytecodeNum.samples, ∀ y ∈ Catalog.bytecodeNum.samples,
        ¬ RankSum.AllEqual (x.values ++ y.values) := by decide +kernel
    obtain ⟨o, ho⟩ : ∃ o, Catalog.bytecodeNum.evaluate RankSum.normalUpperTail = .ok o := by
      refine Report.exists_evaluate hvalid (fun c _ x y hx hy => ?_) fun c _ => ?_
      · have := hlength x hx.mem
        have := hlength y hy.mem
        rw [List.length_append]
        exact (Nat.pow_le_pow_left (show _ ≤ 10 by omega) 3).trans_lt (by decide)
      · rintro ⟨x, y, hx, hy, htied⟩
        exact hequal x hx.mem y hy.mem htied
    have hzero : ((⟨[]⟩ : Workspace).session RankSum.normalUpperTail
        ["report", "bytecode-num", "bytecode-num"]).1 = 0 := by
      by_contra hstatus
      obtain ⟨r, hr, e, he⟩ := (hreports _ (.report hfound)).1.1 hstatus
      obtain rfl : r = Catalog.bytecodeNum := by simpa using hr
      cases ho.symm.trans he
    obtain ⟨reports, os, hrequests, hos, houtput⟩ := htext hzero rfl rfl
    obtain rfl : reports = [Catalog.bytecodeNum, Catalog.bytecodeNum] := by
      cases hrequests with
      | report hfound' =>
        exact Except.ok.inj
          ((builtIn_eq_ok_iff.2 hfound').symm.trans (builtIn_eq_ok_iff.2 hfound))
    have htwice : List.Forall₂ (fun r o => r.evaluate RankSum.normalUpperTail = .ok o)
        [Catalog.bytecodeNum, Catalog.bytecodeNum] [o, o] := .cons ho (.cons ho .nil)
    obtain rfl : os = [o, o] :=
      Except.ok.inj ((mapM_eq_ok_iff.2 hos).symm.trans (mapM_eq_ok_iff.2 htwice))
    exact ⟨o, ho, houtput.trans (by simp [String.join_cons])⟩

end Campaign
