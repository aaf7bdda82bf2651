import Campaign.Experiment.File
import Campaign.Proofs.RankSum.Outcome
import Campaign.Proofs.Sample.Figures
import Campaign.Proofs.Traversal
import Campaign.Report.Outcome

/-!
# Evaluating a valid report

Validation and evaluation look at a report independently of each other. What validation accepts can
be evaluated, but for one reason: a comparison whose pooled values are all equal has no p-value.

* `Report.IsOnly`: the only sample with a label;
* `Report.IsTied`: a comparison whose pooled values are all equal;
* `Report.IsOutcome`: what an outcome says about its report.

## Main statements

* `Experiment.validate_eq_ok_iff`: what validation accepts of an experiment.
* `checkSamples_eq_ok_iff`: samples pass exactly if they are usable and their labels differ.
* `testLine_of_isOnly`: the line of a comparison.
* `evaluate_eq_ok_iff`: what an outcome says about its report, and that it is computed.
* `evaluate_of_valid`: the evaluation of a valid report.
-/

namespace Campaign

namespace Experiment

theorem validate_eq_ok_iff (e : Experiment) : e.validate = .ok () ↔
    (e.reports ≠ [] ∨ e.chart ≠ none) ∧ (∀ r ∈ e.reports, r.validate = .ok ()) ∧
      ∀ c ∈ e.chart, c.validate = .ok () := by
  rw [← checkReports_eq_ok_iff, validate]
  split_ifs with hempty
  · simp_all [throw, throwThe, MonadExceptOf.throw, bind, Except.bind]
  · have hsome : e.reports ≠ [] ∨ e.chart ≠ none := by
      by_contra hnone
      simp_all
    cases hreports : checkReports e.reports with
    | error err => simp [bind, Except.bind]
    | ok _ =>
      cases hchart : e.chart with
      | none =>
        have hne : e.reports ≠ [] := hsome.resolve_right (by simp [hchart])
        simp [bind, Except.bind, pure, Except.pure, hne]
      | some c =>
        cases hvalid : c.validate <;>
          simp [throw, throwThe, MonadExceptOf.throw, bind, Except.bind, pure, Except.pure, hvalid]

theorem validate_of_mem {e : Experiment} (h : e.validate = .ok ()) {r : Report}
    (hr : r ∈ e.reports) : r.validate = .ok () :=
  ((validate_eq_ok_iff e).1 h).2.1 r hr

theorem validate_of_parse {text : String} {e : Experiment} (h : parse text = .ok e) :
    e.validate = .ok () := by
  rw [parse] at h
  cases hread : (Toml.read? text).bind ofToml? with
  | none =>
    rw [hread] at h
    cases h
  | some e' =>
    rw [hread] at h
    cases hvalid : e'.validate with
    | error err =>
      simp only [hvalid] at h
      cases h
    | ok _ =>
      simp only [hvalid] at h
      obtain rfl := Except.ok.inj h
      exact hvalid

end Experiment

namespace Report

/-! ### What validation accepts -/

theorem checkSamples_eq_ok_iff (report : String) (seen : List String) (samples : List Sample) :
    checkSamples report seen samples = .ok () ↔
      (∀ s ∈ samples, s.label ∉ seen ∧ s.validate = .ok ()) ∧
        (samples.map (·.label)).Nodup := by
  induction samples generalizing seen with
  | nil => simp [checkSamples]
  | cons s samples ih =>
    rw [checkSamples]
    split_ifs with hseen
    · simp [hseen]
    · cases hvalid : s.validate with
      | error e => simp [hvalid]
      | ok _ =>
        rw [ih, List.forall_mem_cons, List.map_cons, List.nodup_cons]
        constructor
        · rintro ⟨hrest, hnodup⟩
          refine ⟨⟨⟨hseen, hvalid⟩, fun t ht => ?_⟩, ?_, hnodup⟩
          · exact ⟨fun h => (hrest t ht).1 (List.mem_cons_of_mem s.label h), (hrest t ht).2⟩
          · rintro hlabel
            obtain ⟨t, ht, heq⟩ := List.mem_map.1 hlabel
            exact (hrest t ht).1 (heq ▸ List.mem_cons_self)
        · rintro ⟨⟨-, hrest⟩, hnew, hnodup⟩
          refine ⟨fun t ht => ⟨fun h => ?_, (hrest t ht).2⟩, hnodup⟩
          rcases List.mem_cons.1 h with heq | h
          · exact hnew (heq ▸ List.mem_map_of_mem ht)
          · exact (hrest t ht).1 h

/-- A sample is the only one of a report with a label. -/
def IsOnly (r : Report) (label : String) (s : Sample) : Prop :=
  r.samples.filter (·.label = label) = [s]

/-- All pooled values of the samples of a comparison are equal. -/
def IsTied (r : Report) (c : Comparison) : Prop :=
  ∃ x y, r.IsOnly c.x x ∧ r.IsOnly c.y y ∧ RankSum.AllEqual (x.values ++ y.values)

/-- What validation has found out about a report. -/
structure IsValid (r : Report) : Prop where
  precision : r.precision ≤ maxPrecision
  samples : ∀ s ∈ r.samples, s.validate = .ok ()
  labels : (r.samples.map (·.label)).Nodup
  comparisons : ∀ c ∈ r.comparisons,
    c.x ∈ r.samples.map (·.label) ∧ c.y ∈ r.samples.map (·.label)

/-- Validation step by step. -/
theorem validate_eq (r : Report) : r.validate = if maxPrecision < r.precision then
      .error (.precision r.name r.precision maxPrecision)
    else (checkSamples r.name [] r.samples).bind fun _ =>
      checkComparisons r.name (r.samples.map (·.label)) r.comparisons := by
  rw [validate]
  split_ifs <;> rfl

theorem validate_eq_ok_iff (r : Report) : r.validate = .ok () ↔ r.IsValid := by
  rw [validate_eq]
  split_ifs with hprecision
  · constructor
    · intro h
      cases h
    · intro h
      exact absurd h.precision (Nat.not_le.2 hprecision)
  · cases hsamples : checkSamples r.name [] r.samples with
    | error e =>
      constructor
      · intro h
        cases h
      · intro h
        have hok := (checkSamples_eq_ok_iff r.name [] r.samples).2
          ⟨fun s hs => ⟨List.not_mem_nil, h.samples s hs⟩, h.labels⟩
        exact absurd (hsamples.symm.trans hok) (by simp)
    | ok _ =>
      obtain ⟨hvalid, hlabels⟩ := (checkSamples_eq_ok_iff r.name [] r.samples).1 hsamples
      rw [Except.bind, checkComparisons_eq_ok_iff]
      exact ⟨fun h => ⟨Nat.not_lt.1 hprecision, fun s hs => (hvalid s hs).2, hlabels, h⟩,
        fun h => h.comparisons⟩

/-- The reports of an experiment file that is accepted are valid. -/
theorem isValid_of_parse {text : String} {e : Experiment} (h : Experiment.parse text = .ok e)
    {r : Report} (hr : r ∈ e.reports) : r.IsValid := by
  rw [← validate_eq_ok_iff]
  exact Experiment.validate_of_mem (Experiment.validate_of_parse h) hr

/-! ### The only sample with a label -/

section

variable {r : Report} {label : String} {s : Sample}

theorem exists_isOnly (h : r.IsValid) (hlabel : label ∈ r.samples.map (·.label)) :
    ∃ s, r.IsOnly label s := by
  have hcount := List.count_eq_one_of_mem h.labels hlabel
  rw [List.count, List.countP_map, List.countP_eq_length_filter] at hcount
  obtain ⟨s, hs⟩ := List.length_eq_one_iff.1 hcount
  refine ⟨s, (List.filter_congr fun t _ => ?_).trans hs⟩
  rfl

theorem IsOnly.mem (h : r.IsOnly label s) : s ∈ r.samples := by
  have hs : s ∈ r.samples.filter (·.label = label) := h ▸ List.mem_singleton_self s
  exact (List.mem_filter.1 hs).1

theorem IsOnly.unique {t : Sample} (hs : r.IsOnly label s) (ht : r.IsOnly label t) : s = t :=
  List.singleton_inj.1 (hs.symm.trans ht)

/-- The first sample with a label is the only one. -/
theorem IsOnly.findSample? (h : r.IsOnly label s) : r.findSample? label = some s := by
  rw [Report.findSample?, ← List.head?_filter]
  simp only [IsOnly] at h
  rw [h]
  rfl

theorem IsOnly.lookUp (h : r.IsOnly label s) (c : Comparison) : r.lookUp c label = .ok s := by
  rw [Report.lookUp, h.findSample?]

end

/-- A line that shows a sample of a report. -/
structure IsMeanLine (r : Report) (s : Sample) (line : MeanLine) : Prop where
  label : line.label = s.label
  summary : Summary.of s = .ok line.summary
  mean : s.roundedMean r.precision = .ok line.mean

/-- A line that shows a comparison of a report. -/
structure IsTestLine (tail : Float → Float) (r : Report) (c : Comparison) (line : TestLine) :
    Prop where
  title : line.title = c.title
  left : line.x = c.x
  right : line.y = c.y
  result : ∃ x y, r.IsOnly c.x x ∧ r.IsOnly c.y y ∧
    RankSum.test tail x.values y.values c.config = .ok line.result

/-- An outcome that shows all of a report, in its order. -/
structure IsOutcome (tail : Float → Float) (r : Report) (o : Outcome) : Prop where
  name : o.name = r.name
  separator : o.separator = r.separator
  meanLayout : o.meanLayout = r.meanLayout
  means : List.Forall₂ r.IsMeanLine r.samples o.means
  tests : List.Forall₂ (r.IsTestLine tail) r.comparisons o.tests

/-! ### The lines of a valid report -/

section

variable (tail : Float → Float) {r : Report} {c : Comparison} {x y : Sample}

/-- The line of a comparison shows its test of the only samples with its labels. -/
theorem testLine_of_isOnly (hx : r.IsOnly c.x x) (hy : r.IsOnly c.y y) :
    r.testLine tail c =
      match RankSum.test tail x.values y.values c.config with
      | .ok result => .ok ⟨c.title, c.x, c.y, result⟩
      | .error e => .error (.rankSum r.name c.title e) := by
  rw [testLine, hx.lookUp, hy.lookUp]
  rfl

theorem test_of_valid (hx : x.validate = .ok ()) (hy : y.validate = .ok ())
    (hN : (x.values ++ y.values).length ^ 3 < 2 ^ 53) (config : RankSum.Config) :
    RankSum.AllEqual (x.values ++ y.values) ∧
        RankSum.test tail x.values y.values config = .error .degenerate ∨
      ¬ RankSum.AllEqual (x.values ++ y.values) ∧
        ∃ result, RankSum.test tail x.values y.values config = .ok result := by
  obtain ⟨hxne, hxfin⟩ := (Sample.validate_eq_ok_iff x).1 hx
  obtain ⟨hyne, hyfin⟩ := (Sample.validate_eq_ok_iff y).1 hy
  have hfin : RankSum.AllFinite (x.values ++ y.values) :=
    List.forall_mem_append.2 ⟨hxfin, hyfin⟩
  obtain ⟨hempty, -⟩ | ⟨-, hnot, -⟩ | ⟨-, -, hequal, htest⟩ | ⟨h, hresult⟩ :=
    RankSum.test_cases tail config x.values y.values (RankSum.mul_succ_le_of_cube hN)
  · exact absurd hempty (not_or.2 ⟨hxne, hyne⟩)
  · exact absurd hfin hnot
  · exact .inl ⟨hequal, htest⟩
  · exact .inr ⟨h.differ, hresult⟩

/-- **A comparison** of a valid report fails exactly if it is tied. -/
theorem testLine_cases (h : r.IsValid) (hc : c ∈ r.comparisons)
    (hN : ∀ x y, r.IsOnly c.x x → r.IsOnly c.y y →
      (x.values ++ y.values).length ^ 3 < 2 ^ 53) :
    r.IsTied c ∧ r.testLine tail c = .error (.rankSum r.name c.title .degenerate) ∨
      ¬ r.IsTied c ∧ ∃ line, r.testLine tail c = .ok line := by
  obtain ⟨x, hx⟩ := exists_isOnly h (h.comparisons c hc).1
  obtain ⟨y, hy⟩ := exists_isOnly h (h.comparisons c hc).2
  have hline := testLine_of_isOnly tail hx hy
  obtain ⟨hequal, htest⟩ | ⟨hequal, result, htest⟩ := test_of_valid tail
    (h.samples x hx.mem) (h.samples y hy.mem) (hN x y hx hy) c.config
  · rw [htest] at hline
    exact .inl ⟨⟨x, y, hx, hy, hequal⟩, hline⟩
  · rw [htest] at hline
    refine .inr ⟨?_, _, hline⟩
    rintro ⟨x', y', hx', hy', hequal'⟩
    obtain rfl : x' = x := hx'.unique hx
    obtain rfl : y' = y := hy'.unique hy
    exact hequal hequal'

theorem exists_meanLine {s : Sample} (h : s.validate = .ok ()) :
    ∃ line, r.meanLine s = .ok line ∧ r.IsMeanLine s line := by
  obtain ⟨summary, hsummary, hmean⟩ := exists_summary h
  refine ⟨⟨s.label, Rounded.of summary.mean r.precision, summary⟩, ?_, rfl, hsummary, ?_⟩
  · rw [meanLine, hsummary]
  · rw [Sample.roundedMean, hmean]
    rfl

theorem evaluate_of_isValid (h : r.IsValid) :
    ∃ means, List.Forall₂ r.IsMeanLine r.samples means ∧
      r.evaluate tail = (r.comparisons.mapM (r.testLine tail)).map fun tests =>
        { name := r.name, separator := r.separator, meanLayout := r.meanLayout, means, tests } := by
  obtain ⟨means, hmeans⟩ := (exists_mapM_eq_ok_iff (f := r.meanLine)).2 fun s hs =>
    (exists_meanLine (r := r) (h.samples s hs)).imp fun line hline => hline.1
  refine ⟨means, forall₂_of_mapM hmeans fun s hs line hline => ?_, ?_⟩
  · obtain ⟨line', hline', hshows⟩ := exists_meanLine (r := r) (h.samples s hs)
    obtain rfl := Except.ok.inj (hline'.symm.trans hline)
    exact hshows
  · rw [evaluate, (validate_eq_ok_iff r).2 h]
    simp only [bind, Except.bind, hmeans]
    cases r.comparisons.mapM (r.testLine tail) <;> rfl

end

/-! ### Outcomes -/

section

variable {tail : Float → Float} {r : Report} {o : Outcome} {c : Comparison}

theorem IsMeanLine.unique {s : Sample} {line line' : MeanLine} (h : r.IsMeanLine s line)
    (h' : r.IsMeanLine s line') : line = line' := by
  cases line
  cases line'
  obtain ⟨hlabel, hsummary, hmean⟩ := h
  obtain ⟨hlabel', hsummary', hmean'⟩ := h'
  obtain rfl := hlabel.trans hlabel'.symm
  obtain rfl := Except.ok.inj (hsummary.symm.trans hsummary')
  obtain rfl := Except.ok.inj (hmean.symm.trans hmean')
  rfl

theorem testLine_eq_ok_iff {line : TestLine} (h : r.IsValid) (hc : c ∈ r.comparisons) :
    r.testLine tail c = .ok line ↔ r.IsTestLine tail c line := by
  obtain ⟨x, hx⟩ := exists_isOnly h (h.comparisons c hc).1
  obtain ⟨y, hy⟩ := exists_isOnly h (h.comparisons c hc).2
  rw [testLine_of_isOnly tail hx hy]
  constructor
  · intro hline
    cases htest : RankSum.test tail x.values y.values c.config with
    | error e =>
      rw [htest] at hline
      cases hline
    | ok result =>
      rw [htest] at hline
      obtain rfl := Except.ok.inj hline
      exact ⟨rfl, rfl, rfl, x, y, hx, hy, htest⟩
  · rintro ⟨htitle, hleft, hright, x', y', hx', hy', htest⟩
    obtain rfl := hx.unique hx'
    obtain rfl := hy.unique hy'
    rw [htest]
    cases line
    simp_all

theorem evaluate_of_validate {e : Error} (h : r.validate = .error e) :
    r.evaluate tail = .error e := by
  rw [evaluate, h]
  rfl

/-- **An outcome is computed** exactly if the report is valid and the outcome shows all of it. -/
theorem evaluate_eq_ok_iff : r.evaluate tail = .ok o ↔ r.IsValid ∧ r.IsOutcome tail o := by
  constructor
  · intro ho
    have hvalid : r.IsValid := by
      rw [← validate_eq_ok_iff]
      cases hvalidate : r.validate with
      | error e => cases (evaluate_of_validate hvalidate).symm.trans ho
      | ok _ => rfl
    obtain ⟨means, hmeans, hevaluate⟩ := evaluate_of_isValid tail hvalid
    rw [hevaluate] at ho
    cases htests : r.comparisons.mapM (r.testLine tail) with
    | error e =>
      rw [htests] at ho
      cases ho
    | ok tests =>
      rw [htests] at ho
      obtain rfl := Except.ok.inj ho
      exact ⟨hvalid, rfl, rfl, rfl, hmeans, forall₂_of_mapM htests fun c hc line hline =>
        (testLine_eq_ok_iff hvalid hc).1 hline⟩
  · rintro ⟨hvalid, ho⟩
    obtain ⟨means, hmeans, hevaluate⟩ := evaluate_of_isValid tail hvalid
    have hsame : means = o.means :=
      List.right_unique_forall₂' (fun _ _ _ h h' => h.unique h') hmeans ho.means
    have htests : r.comparisons.mapM (r.testLine tail) = .ok o.tests := by
      rw [mapM_eq_ok_iff]
      refine ((List.forall₂_and_left _ _).2 ⟨fun c hc => hc, ho.tests⟩).imp fun c line h => ?_
      exact (testLine_eq_ok_iff hvalid h.1).2 h.2
    rw [hevaluate, htests, hsame]
    cases o
    obtain ⟨rfl, rfl, rfl, -, -⟩ := ho
    rfl

end

/-! ### Valid reports -/

section

variable (tail : Float → Float) {r : Report}

/-- **Evaluating a valid report.** It fails exactly if a comparison has all its pooled values equal,
and then with the error of the first such comparison; otherwise its outcome shows the figures of
every sample and the result of every comparison. -/
theorem evaluate_of_valid
    (hvalid : r.validate = .ok () ∨ ∃ text e, Experiment.parse text = .ok e ∧ r ∈ e.reports)
    (hN : ∀ c ∈ r.comparisons, ∀ x y, r.IsOnly c.x x → r.IsOnly c.y y →
      (x.values ++ y.values).length ^ 3 < 2 ^ 53) :
    ((∃ o, r.evaluate tail = .ok o) ↔ ∀ c ∈ r.comparisons, ¬ r.IsTied c) ∧
    (∀ e, r.evaluate tail = .error e ↔
      ∃ before c after, r.comparisons = before ++ c :: after ∧ (∀ b ∈ before, ¬ r.IsTied b) ∧
        r.IsTied c ∧ e = .rankSum r.name c.title .degenerate) ∧
    ∀ o, r.evaluate tail = .ok o → r.IsOutcome tail o := by
  have h : r.IsValid := by
    rcases hvalid with hvalid | ⟨text, e, hparse, hr⟩
    · exact (validate_eq_ok_iff r).1 hvalid
    · exact isValid_of_parse hparse hr
  obtain ⟨means, -, hevaluate⟩ := evaluate_of_isValid tail h
  have hcases := fun c hc => testLine_cases tail h hc (hN c hc)
  rw [hevaluate]
  have hok : ∀ c ∈ r.comparisons, (∃ line, r.testLine tail c = .ok line) ↔ ¬ r.IsTied c := by
    intro c hc
    obtain ⟨htied, hline⟩ | ⟨htied, line, hline⟩ := hcases c hc
    · simp [htied, hline]
    · simp [htied, hline]
  refine ⟨?_, fun e => ?_, fun o ho => ?_⟩
  · rw [← forall₂_congr hok, ← exists_mapM_eq_ok_iff]
    cases r.comparisons.mapM (r.testLine tail) <;> simp [Except.map]
  · have hmap : ∀ p : Except Error (List TestLine), p.map (fun tests =>
        ({ name := r.name, separator := r.separator, meanLayout := r.meanLayout, means, tests } :
          Outcome)) = .error e ↔ p = .error e := by
      intro p
      cases p <;> simp [Except.map]
    rw [hmap, mapM_eq_error_iff]
    refine exists_congr fun before => exists_congr fun c => exists_congr fun after => ?_
    refine and_congr_right fun hsplit => ?_
    have hmem : ∀ b ∈ before, b ∈ r.comparisons := fun b hb => by
      rw [hsplit]
      exact List.mem_append_left _ hb
    have hc : c ∈ r.comparisons := by
      rw [hsplit]
      exact List.mem_append_right _ List.mem_cons_self
    refine and_congr (forall₂_congr fun b hb => hok b (hmem b hb)) ?_
    obtain ⟨htied, hline⟩ | ⟨htied, line, hline⟩ := hcases c hc
    · simp [htied, hline, eq_comm]
    · simp [htied, hline]
  · exact (evaluate_eq_ok_iff.1 (hevaluate.trans ho)).2

/-- A report of which the second comparison is tied, by zeros of both signs. -/
def idle : Report :=
  let samples := (({ name := "idle" } : Report).sample "before" [0.0, 1.5]).sample "after" [-0.0]
  ((samples.sample "still" [0.0]).compare "all" "after" "before").addComparison
    { title := "idle", x := "after", y := "still", config := { method := .exact } }

theorem evaluate_idle :
    idle.validate = .ok () ∧
      idle.evaluate RankSum.normalUpperTail = .error (.rankSum "idle" "idle" .degenerate) := by
  have hvalid : idle.validate = .ok () := by decide +kernel
  have hlength : ∀ s ∈ idle.samples, s.values.length ≤ 2 := by decide +kernel
  obtain ⟨-, herror, -⟩ := evaluate_of_valid RankSum.normalUpperTail (.inl hvalid)
    fun c _ x y hx hy => by
      have hx' := hlength x hx.mem
      have hy' := hlength y hy.mem
      rw [List.length_append]
      exact (Nat.pow_le_pow_left (Nat.add_le_add hx' hy') 3).trans_lt (by decide)
  have hbefore : idle.IsOnly "before" ⟨"before", [0.0, 1.5]⟩ := by
    unfold IsOnly
    decide +kernel
  have hafter : idle.IsOnly "after" ⟨"after", [-0.0]⟩ := by
    unfold IsOnly
    decide +kernel
  have hstill : idle.IsOnly "still" ⟨"still", [0.0]⟩ := by
    unfold IsOnly
    decide +kernel
  refine ⟨hvalid, (herror _).2 ⟨[idle.comparisons[0]], idle.comparisons[1], [], rfl, ?_, ?_, rfl⟩⟩
  · rintro b hb ⟨x, y, hx, hy, hequal⟩
    obtain rfl := List.mem_singleton.1 hb
    obtain rfl := hx.unique hafter
    obtain rfl := hy.unique hbefore
    exact absurd hequal (by decide +kernel)
  · exact ⟨_, _, hafter, hstill, by decide +kernel⟩

end

end Report

end Campaign
