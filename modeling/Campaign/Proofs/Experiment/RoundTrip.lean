import Campaign.Proofs.Report.Evaluation
import Campaign.Proofs.Toml.Record

/-!
# Experiment files read back

Whatever validation accepts can be written: its doubles are finite and its precisions are small.
Each type that a file holds is read back from the table that is written for it, whatever its texts
are. What is not written, the usual layout of the means or a missing chart, is what the reader
takes by default.

## Main statements

* `Chart.validate_eq_ok_iff`: what validation accepts of a chart;
* `Sample.encodes`, `Comparison.encodes`, `Report.encodes`, `Bar.encodes`, `Chart.encodes`,
  `Experiment.encodes`: the tables that are written;
* `Experiment.parse_text`: the file of an experiment.
-/

namespace Campaign

open Toml

/-! ### What validation accepts of a chart -/

namespace Chart

theorem checkBar_eq_ok_iff (b : Bar) : checkBar b = .ok () ↔
    b.value.isFinite = true ∧ b.error.isFinite = true ∧ ¬ b.error < 0 := by
  unfold checkBar
  split_ifs with hvalue herror
  · simp_all
  · simp only [Bool.or_eq_true, Bool.not_eq_true', decide_eq_true_eq] at herror
    simp only [false_iff, not_and, not_not]
    exact fun _ hfin => herror.resolve_left (by simp [hfin])
  · simp_all

theorem checkBars_eq_ok_iff (bs : List Bar) :
    bs.forM checkBar = .ok () ↔ ∀ b ∈ bs, checkBar b = .ok () := by
  induction bs with
  | nil => simp [pure, Except.pure]
  | cons b bs ih =>
    rw [List.forall_mem_cons, ← ih, List.forM_eq_forM, List.forM_cons]
    cases checkBar b <;> simp [bind, Except.bind]

theorem validate_eq_ok_iff (c : Chart) : c.validate = .ok () ↔
    c.bars ≠ [] ∧ (0 < c.barWidth ∧ c.barWidth ≤ 1) ∧ ∀ b ∈ c.bars, checkBar b = .ok () := by
  have hsteps : c.validate = if c.bars.isEmpty then .error .noBars
      else if !(0 < c.barWidth && c.barWidth ≤ 1) then .error (.barWidth c.barWidth)
      else c.bars.forM checkBar := by
    rw [validate]
    split_ifs <;> rfl
  rw [hsteps, ← checkBars_eq_ok_iff]
  split_ifs with hbars hwidth
  · simp_all
  · simp only [Bool.not_eq_true', Bool.and_eq_false_iff, decide_eq_false_iff_not] at hwidth
    simp only [false_iff, not_and]
    exact fun _ h => absurd h (by tauto)
  · simp_all

end Chart

/-! ### Samples and comparisons -/

theorem Sample.encodes {s : Sample} (h : ∀ x ∈ s.values, x.isFinite = true) (n : Nat) :
    Encodes (n + 1) s.toToml ofToml? s := by
  have label := encodes_string (n := n) s.label
  have values : Encodes n (.array (s.values.map .float)) (list? float?) s.values :=
    encodes_list (fun _ _ => rfl) fun x hx => ⟨readsBack_float _ (h x hx), rfl⟩
  refine encodes_table (by simp) ?_ fun fields lookup => ?_
  · simp [label.writable, values.writable]
  · simp [ofToml?, fields?, Table.required?, lookup, List.lookup, label.decodes, values.decodes]

theorem Comparison.encodes (c : Comparison) (n : Nat) :
    Encodes (n + 1) c.toToml ofToml? c := by
  have title := encodes_string (n := n) c.title
  have x := encodes_string (n := n) c.x
  have y := encodes_string (n := n) c.y
  have alternative := encodes_choice (n := n)
    (RankSum.Alternative.ofName?_name c.config.alternative) isEmptyTable
  have continuity := encodes_bool (n := n) c.config.continuity
  have method := encodes_choice (n := n) (RankSum.Method.ofName?_name c.config.method) isEmptyTable
  refine encodes_table (by simp) ?_ fun fields lookup => ?_
  · simp [title.writable, x.writable, y.writable, alternative.writable, continuity.writable,
      method.writable]
  · simp [ofToml?, table?, Table.required?, Table.optional?, lookup, List.lookup, title.decodes,
      x.decodes, y.decodes, alternative.decodes, continuity.decodes, method.decodes]

/-! ### Reports -/

/-- The usual layout of the means is left out, and read for want of another. -/
theorem Report.encodes {r : Report} (h : r.validate = .ok ()) (n : Nat) :
    Encodes (n + 2) r.toToml ofToml? r := by
  have valid := (validate_eq_ok_iff r).1 h
  have name := encodes_string (n := n + 1) r.name
  have description := encodes_string (n := n + 1) r.description
  have precision : Encodes (n + 1) (.integer r.precision) (nat? greatestPrecision) r.precision :=
    encodes_nat (valid.precision.trans (by decide))
      ((Int.ofNat_le.2 valid.precision).trans (by decide))
  have separator := encodes_bool (n := n + 1) r.separator
  have samples : Encodes (n + 1) (.array (r.samples.map (·.toToml))) (list? Sample.ofToml?)
      r.samples := encodes_rows (fun _ _ => rfl) fun s hs =>
    Sample.encodes ((Sample.validate_eq_ok_iff s).1 (valid.samples s hs)).2 n
  have comparisons : Encodes (n + 1) (.array (r.comparisons.map (·.toToml)))
      (list? Comparison.ofToml?) r.comparisons :=
    encodes_rows (fun _ _ => rfl) fun c _ => Comparison.encodes c n
  have layout := encodes_choice (n := n + 1) (MeanLayout.ofName?_name r.meanLayout)
    fun v => isEmptyTable v || isEmptyArray v
  refine encodes_table ?_ ?_ fun fields lookup => ?_
  · split_ifs <;> simp
  · split_ifs <;> simp [name.writable, description.writable, precision.writable,
      separator.writable, layout.writable, samples.writable, comparisons.writable]
  · split_ifs at lookup with hlayout <;>
      simp [ofToml?, fields?, Table.required?, Table.optional?, lookup, List.lookup, name.decodes,
        description.decodes, precision.decodes, separator.decodes, layout.decodes,
        samples.decodes, comparisons.decodes]
    -- the reader takes the usual layout where none is named
    rw [← hlayout]

/-! ### Charts -/

theorem Bar.encodes {b : Bar} (h : Chart.checkBar b = .ok ()) (n : Nat) :
    Encodes (n + 1) b.toToml ofToml? b := by
  obtain ⟨hvalue, herror, -⟩ := (Chart.checkBar_eq_ok_iff b).1 h
  have label := encodes_string (n := n) b.label
  have value := encodes_float (n := n) hvalue
  have error := encodes_float (n := n) herror
  refine encodes_table (by simp) ?_ fun fields lookup => ?_
  · simp [label.writable, value.writable, error.writable]
  · simp [ofToml?, fields?, Table.required?, lookup, List.lookup, label.decodes, value.decodes,
      error.decodes]

theorem Chart.encodes {c : Chart} (h : c.validate = .ok ()) (n : Nat) :
    Encodes (n + 2) c.toToml ofToml? c := by
  obtain ⟨-, ⟨h0, h1⟩, hbars⟩ := (validate_eq_ok_iff c).1 h
  have title := encodes_string (n := n + 1) c.title
  have yLabel := encodes_string (n := n + 1) c.yLabel
  have barWidth := encodes_float (n := n + 1) (Binary64.isFinite_of_unit (Binary64.isLE_of_lt h0) h1)
  have bars : Encodes (n + 1) (.array (c.bars.map (·.toToml))) (list? Bar.ofToml?) c.bars :=
    encodes_rows (fun _ _ => rfl) fun b hb => Bar.encodes (hbars b hb) n
  refine encodes_table (by simp) ?_ fun fields lookup => ?_
  · simp [title.writable, yLabel.writable, barWidth.writable, bars.writable]
  · simp [ofToml?, fields?, Table.required?, Table.optional?, lookup, List.lookup, title.decodes,
      yLabel.decodes, barWidth.decodes, bars.decodes]

/-! ### Experiments -/

namespace Experiment

theorem encodes {e : Experiment} (h : e.validate = .ok ()) (n : Nat) :
    Encodes (n + 3) e.toToml ofToml? e := by
  obtain ⟨-, hreports, hchart⟩ := (validate_eq_ok_iff e).1 h
  have reports : Encodes (n + 2) (.array (e.reports.map (·.toToml))) (list? Report.ofToml?)
      e.reports := encodes_rows (fun _ _ => rfl) fun r hr => Report.encodes (hreports r hr) n
  cases e with
  | mk rs chart =>
    cases chart with
    | none =>
      refine encodes_table (by simp) ?_ fun fields lookup => ?_
      · simpa using reports.writable
      · simp [ofToml?, table?, Table.optional?, lookup, List.lookup, reports.decodes]
    | some c =>
      have chart := Chart.encodes (hchart c rfl) n
      refine encodes_table (by simp) ?_ fun fields lookup => ?_
      · simp [reports.writable, chart.writable]
      · simp [ofToml?, table?, Table.optional?, lookup, List.lookup, reports.decodes,
          chart.decodes]

theorem decode_text {e : Experiment} (h : e.validate = .ok ()) :
    (Toml.read? e.text).bind ofToml? = some e := by
  -- bars stand in a chart, and samples in a report: with the document, three tables deep
  have whole : Encodes maxDepth e.toToml ofToml? e := encodes h 77
  have reads : Toml.read? e.text = some (reread e.toToml) := read?_render whole.writable
  rw [reads, Option.bind_some, whole.decodes]

theorem parse_of_decode {text : String} {e : Experiment}
    (hdecode : (Toml.read? text).bind ofToml? = some e) (h : e.validate = .ok ()) :
    parse text = .ok e := by
  rw [parse, hdecode]
  simp only [h]
  rfl

/-- **An experiment without faults is read back from its file as it is.** -/
theorem parse_text {e : Experiment} (h : e.validate = .ok ()) : parse e.text = .ok e :=
  parse_of_decode (decode_text h) h

/-- Texts that need quotes of every kind, doubles that are long to write, and empty lists. -/
def assorted : Experiment where
  reports := [
    { name := "it's \"quoted\"", description := "\n'''\"\"\"\\\tdone\u0001", precision := 17,
      separator := false, meanLayout := .block,
      samples := [⟨"= [1]", [-0.0, 0.1, 5e-324]⟩, ⟨"", [1e300]⟩],
      comparisons := [⟨"#", "", "= [1]", ⟨.twoSided, true, .exact⟩⟩] },
    { name := "" }]
  chart := some { title := "'''", barWidth := 1, bars := [⟨"\r\n", -2.5, 0.0⟩] }

theorem parse_text_of_assorted :
    assorted.validate = .ok () ∧ parse assorted.text = .ok assorted := by
  have valid : assorted.validate = .ok () := by decide +kernel
  exact ⟨valid, parse_text valid⟩

end Experiment

end Campaign
