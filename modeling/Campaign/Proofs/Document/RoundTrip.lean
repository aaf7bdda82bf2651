import Campaign.Csv.Basic
import Campaign.Document.Basic
import Campaign.Proofs.Json.Record

/-!
# Documents read back

A document is read back from its text as it is, whatever its texts are, as long as its figures
survive being printed: sections that are left out because they are empty are read as empty, names of
choices are read as the choices, and lists keep their order.

* `Document.figures`: the doubles in a document;
* `Document.Fits`: counts and precisions are words of a machine.

## Main statements

* `Rounded.encodes`, `Summary.encodes`, `MeanLine.encodes`, `RankSum.Result.encodes`,
  `TestLine.encodes`, `Outcome.encodes`, `Entry.encodes`, `Document.encodes`: the records that are
  written;
* `Document.read?_text`: a document, and the tables and texts made of it.
-/

namespace Campaign

open Json

/-- A double that is printed as a number, which is read as that double. -/
def Survives (x : Float) : Prop := float? (ofFloat x) = some x

instance (x : Float) : Decidable (Survives x) := inferInstanceAs (Decidable (_ = _))

/-! ### Figures -/

/-- The doubles in the mean of a sample. -/
def MeanLine.figures (l : MeanLine) : List Float :=
  [l.mean.value, l.summary.mean, l.summary.stddev, l.summary.min, l.summary.max, l.summary.median]

/-- The doubles in a test. -/
def TestLine.figures (l : TestLine) : List Float := [l.result.statistic, l.result.pvalue]

/-- The doubles in an outcome. -/
def Outcome.figures (o : Outcome) : List Float :=
  o.means.flatMap MeanLine.figures ++ o.tests.flatMap TestLine.figures

/-- The doubles in a document. -/
def Document.figures (d : Document) : List Float := d.outcomes.flatMap Outcome.figures

/-- The precision and the count of a mean are words of a machine. -/
structure MeanLine.Fits (l : MeanLine) : Prop where
  precision : l.mean.precision ≤ Report.greatestPrecision
  count : l.summary.count ≤ greatestCount

instance (l : MeanLine) : Decidable l.Fits :=
  decidable_of_iff (l.mean.precision ≤ Report.greatestPrecision ∧ l.summary.count ≤ greatestCount)
    ⟨fun h => ⟨h.1, h.2⟩, fun h => ⟨h.precision, h.count⟩⟩

/-- Counts and precisions are words of a machine. -/
structure Document.Fits (d : Document) : Prop where
  means : ∀ o ∈ d.outcomes, ∀ l ∈ o.means, l.Fits
  samples : ∀ e ∈ d.catalog, e.samples ≤ greatestCount
  comparisons : ∀ e ∈ d.catalog, e.comparisons ≤ greatestCount

/-! ### Lines -/

theorem Rounded.encodes {r : Rounded} (hvalue : Survives r.value)
    (hprecision : r.precision ≤ Report.greatestPrecision) : Encodes r.toJson ofJson? r := by
  have value := encodes_float hvalue
  have precision := encodes_nat hprecision
  refine encodes_record ["value", "precision"] (by simp) (by simp) ?_ fun hfields => ?_
  · simp [value.readsBack, precision.readsBack]
  · simp [ofJson?, hfields, Fields.required?, List.lookup_cons, value.decodes, precision.decodes]

theorem Summary.encodes {s : Summary} (hcount : s.count ≤ greatestCount)
    (h : ∀ x ∈ [s.mean, s.stddev, s.min, s.max, s.median], Survives x) :
    Encodes s.toJson ofJson? s := by
  simp only [List.forall_mem_cons, List.not_mem_nil, false_implies, implies_true, and_true] at h
  obtain ⟨hmean, hstddev, hmin, hmax, hmedian⟩ := h
  have count := encodes_nat hcount
  have mean := encodes_float hmean
  have stddev := encodes_float hstddev
  have min := encodes_float hmin
  have max := encodes_float hmax
  have median := encodes_float hmedian
  refine encodes_record ["count", "mean", "stddev", "min", "max", "median"] (by simp) (by simp) ?_
    fun hfields => ?_
  · simp [count.readsBack, mean.readsBack, stddev.readsBack, min.readsBack, max.readsBack,
      median.readsBack]
  · simp [ofJson?, hfields, Fields.required?, List.lookup_cons, count.decodes, mean.decodes,
      stddev.decodes, min.decodes, max.decodes, median.decodes]

theorem MeanLine.encodes {l : MeanLine} (hfits : l.Fits) (h : ∀ x ∈ l.figures, Survives x) :
    Encodes l.toJson ofJson? l := by
  obtain ⟨hvalue, hfigures⟩ := List.forall_mem_cons.1 h
  have label := encodes_string l.label
  have mean := Rounded.encodes hvalue hfits.precision
  have summary := Summary.encodes hfits.count hfigures
  refine encodes_record ["label", "mean", "summary"] (by simp) (by simp) ?_ fun hfields => ?_
  · simp [label.readsBack, mean.readsBack, summary.readsBack]
  · simp [ofJson?, hfields, Fields.required?, List.lookup_cons, label.decodes, mean.decodes,
      summary.decodes]

theorem RankSum.Result.encodes {r : RankSum.Result} (hstatistic : Survives r.statistic)
    (hpvalue : Survives r.pvalue) : Encodes r.toJson ofJson? r := by
  have statistic := encodes_float hstatistic
  have pvalue := encodes_float hpvalue
  have method := encodes_choice (RankSum.Method.ofName?_name r.method)
  have alternative := encodes_choice (RankSum.Alternative.ofName?_name r.alternative)
  refine encodes_record ["statistic", "pvalue", "method", "alternative"] (by simp) (by simp) ?_
    fun hfields => ?_
  · simp [statistic.readsBack, pvalue.readsBack, method.readsBack, alternative.readsBack]
  · simp [ofJson?, hfields, Fields.required?, List.lookup_cons, statistic.decodes, pvalue.decodes,
      method.decodes, alternative.decodes]

theorem TestLine.encodes {l : TestLine} (h : ∀ x ∈ l.figures, Survives x) :
    Encodes l.toJson ofJson? l := by
  obtain ⟨hstatistic, hpvalue⟩ := List.forall_mem_cons.1 h
  have title := encodes_string l.title
  have x := encodes_string l.x
  have y := encodes_string l.y
  have result := RankSum.Result.encodes hstatistic (hpvalue _ List.mem_cons_self)
  refine encodes_record ["title", "x", "y", "result"] (by simp) (by simp) ?_ fun hfields => ?_
  · simp [title.readsBack, x.readsBack, y.readsBack, result.readsBack]
  · simp [ofJson?, hfields, Fields.required?, List.lookup_cons, title.decodes, x.decodes, y.decodes,
      result.decodes]

/-! ### Outcomes and entries -/

theorem Outcome.encodes {o : Outcome} (hfits : ∀ l ∈ o.means, l.Fits)
    (h : ∀ x ∈ o.figures, Survives x) : Encodes o.toJson ofJson? o := by
  obtain ⟨hmeans, htests⟩ := List.forall_mem_append.1 h
  have name := encodes_string o.name
  have separator := encodes_bool o.separator
  have layout := encodes_choice (MeanLayout.ofName?_name o.meanLayout)
  have means : Encodes (array (o.means.map (·.toJson))) (list? MeanLine.ofJson?) o.means :=
    encodes_list fun l hl => MeanLine.encodes (hfits l hl) fun x hx =>
      hmeans x (List.mem_flatMap.2 ⟨l, hl, hx⟩)
  have tests : Encodes (array (o.tests.map (·.toJson))) (list? TestLine.ofJson?) o.tests :=
    encodes_list fun l hl => TestLine.encodes fun x hx => htests x (List.mem_flatMap.2 ⟨l, hl, hx⟩)
  refine encodes_record ["name", "separator", "mean_layout", "means", "tests"] (by simp) (by simp)
    ?_ fun hfields => ?_
  · simp [name.readsBack, separator.readsBack, layout.readsBack, means.readsBack, tests.readsBack]
  · simp [ofJson?, hfields, Fields.required?, List.lookup_cons, name.decodes, separator.decodes,
      layout.decodes, means.decodes, tests.decodes]

theorem Entry.encodes {e : Entry} (hsamples : e.samples ≤ greatestCount)
    (hcomparisons : e.comparisons ≤ greatestCount) : Encodes e.toJson ofJson? e := by
  have name := encodes_string e.name
  have description := encodes_string e.description
  have samples := encodes_nat hsamples
  have comparisons := encodes_nat hcomparisons
  refine encodes_record ["name", "description", "samples", "comparisons"] (by simp) (by simp) ?_
    fun hfields => ?_
  · simp [name.readsBack, description.readsBack, samples.readsBack, comparisons.readsBack]
  · simp [ofJson?, hfields, Fields.required?, List.lookup_cons, name.decodes, description.decodes,
      samples.decodes, comparisons.decodes]

/-! ### Documents -/

namespace Document

/-- A section that is left out because it is empty is read as empty. -/
theorem encodes {d : Document} (hfits : d.Fits) (h : ∀ x ∈ d.figures, Survives x) :
    Encodes d.toJson ofJson? d := by
  have version := encodes_string d.version
  have format := encodes_string d.format
  have reports : Encodes (array (d.outcomes.map (·.toJson))) (list? Outcome.ofJson?) d.outcomes :=
    encodes_list fun o ho => Outcome.encodes (hfits.means o ho) fun x hx =>
      h x (List.mem_flatMap.2 ⟨o, ho, hx⟩)
  have catalog : Encodes (array (d.catalog.map (·.toJson))) (list? Entry.ofJson?) d.catalog :=
    encodes_list fun e he => Entry.encodes (hfits.samples e he) (hfits.comparisons e he)
  refine encodes_record ["version", "format", "reports", "catalog"] ?_ ?_ ?_ fun hfields => ?_
  · unfold listField
    split_ifs <;> simp
  · unfold listField
    split_ifs <;> simp
  · unfold listField
    split_ifs <;> simp [version.readsBack, format.readsBack, reports.readsBack, catalog.readsBack]
  · obtain ⟨v, f, os, es⟩ := d
    unfold listField at hfields ⊢
    split_ifs at hfields ⊢ <;>
      simp_all [ofJson?, Fields.required?, Fields.optional?, List.lookup_cons, version.decodes,
        format.decodes, reports.decodes, catalog.decodes]

/-- **A document is read back from its text as it is**, and so are the tables and texts that are
made of it. -/
theorem read?_text {d : Document} (hfits : d.Fits) (h : ∀ x ∈ d.figures, Survives x) :
    read? d.text = some d ∧
      (read? d.text).map (fun e => Csv.outcomes e.outcomes) = some (Csv.outcomes d.outcomes) ∧
      (read? d.text).map (fun e => String.join (e.outcomes.map (·.text))) =
        some (String.join (d.outcomes.map (·.text))) := by
  have whole := encodes hfits h
  have reads : read? d.text = some d := by
    rw [read?, text, read?_render whole.readsBack]
    exact whole.decodes
  rw [reads]
  exact ⟨rfl, rfl, rfl⟩

/-- Texts with every kind of escape, an outcome of no lines, and a catalogue. -/
def assorted : Document :=
  ((empty.addOutcome ⟨"a \"quoted\" \\ name\u0001", true, .block,
      [⟨"\n\t\r", ⟨2.5, 4294967295⟩, ⟨3, 0.1, 1e-7, -0.0, 1e300, 2⟩⟩],
      [⟨"/", "", "é", ⟨4.5, 0.5, .exact, .twoSided⟩⟩]⟩).addOutcome
    ⟨"", false, .inline, [], []⟩).addEntry { name := "b", description := "\u000c\u0008" }

theorem read?_text_of_assorted :
    assorted.Fits ∧ (∀ x ∈ assorted.figures, Survives x) ∧
      read? assorted.text = some assorted := by
  have hfits : assorted.Fits := ⟨by decide, by decide, by decide⟩
  have hfigures : ∀ x ∈ assorted.figures, Survives x := by decide +kernel
  exact ⟨hfits, hfigures, (read?_text hfits hfigures).1⟩

end Document

end Campaign
