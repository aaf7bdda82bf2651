import Campaign.Proofs.Document.RoundTrip
import Campaign.Proofs.Json.Missing

/-!
# Documents that cannot be read back

Each figure of a document stands in a field that asks for a number, so a document with a figure that
is not finite is written but not read.

* `Legible`: a double that is a number in print, if it is finite.

## Main statements

* `Rounded.demands`, `Summary.demands`, `MeanLine.demands`, `RankSum.Result.demands`,
  `TestLine.demands`, `Outcome.demands`, `Document.demands`: the records that are written;
* `Document.exists_read?_iff`: which documents are read back.
-/

namespace Campaign

open Json

/-- A double that is printed as a number if it is finite. The number may be a neighbour. -/
def Legible (x : Float) : Prop := x.isFinite = true → ∃ y, float? (ofFloat x) = some y

/-! ### Lines -/

theorem Rounded.demands {r : Rounded} (h : Legible r.value) :
    Demands r.toJson ofJson? [r.value] := by
  have value := demands_float h
  have precision := demands_nat r.precision (nat? Report.greatestPrecision)
  refine demands_record ["value", "precision"] (by simp) (by simp) ?_ fun v hfields a ha => ?_
  · simp [value.readsBack, precision.readsBack]
  · simp only [ofJson?, hfields, Fields.required?, List.map_cons, List.map_nil, List.lookup_cons,
      BEq.rfl, String.reduceBEq, Option.bind_eq_bind, Option.bind_some,
      Option.bind_eq_some_iff] at ha
    obtain ⟨_, hvalue, -⟩ := ha
    exact value.finite _ hvalue

theorem Summary.demands {s : Summary}
    (h : ∀ x ∈ [s.mean, s.stddev, s.min, s.max, s.median], Legible x) :
    Demands s.toJson ofJson? [s.mean, s.stddev, s.min, s.max, s.median] := by
  simp only [List.forall_mem_cons, List.not_mem_nil, false_implies, implies_true, and_true] at h
  obtain ⟨hmean, hstddev, hmin, hmax, hmedian⟩ := h
  have count := demands_nat s.count (nat? greatestCount)
  have mean := demands_float hmean
  have stddev := demands_float hstddev
  have min := demands_float hmin
  have max := demands_float hmax
  have median := demands_float hmedian
  refine demands_record ["count", "mean", "stddev", "min", "max", "median"] (by simp) (by simp) ?_
    fun v hfields a ha => ?_
  · simp [count.readsBack, mean.readsBack, stddev.readsBack, min.readsBack, max.readsBack,
      median.readsBack]
  · simp only [ofJson?, hfields, Fields.required?, List.map_cons, List.map_nil, List.lookup_cons,
      BEq.rfl, String.reduceBEq, Option.bind_eq_bind, Option.bind_some,
      Option.bind_eq_some_iff] at ha
    obtain ⟨_, -, _, hmean, _, hstddev, _, hmin, _, hmax, _, hmedian, -⟩ := ha
    have mean := mean.finite _ hmean
    have stddev := stddev.finite _ hstddev
    have min := min.finite _ hmin
    have max := max.finite _ hmax
    have median := median.finite _ hmedian
    simp_all

theorem MeanLine.demands {l : MeanLine} (h : ∀ x ∈ l.figures, Legible x) :
    Demands l.toJson ofJson? l.figures := by
  obtain ⟨hvalue, hfigures⟩ := List.forall_mem_cons.1 h
  have label := demands_string l.label string?
  have mean := Rounded.demands hvalue
  have summary := Summary.demands hfigures
  refine demands_record ["label", "mean", "summary"] (by simp) (by simp) ?_ fun v hfields a ha => ?_
  · simp [label.readsBack, mean.readsBack, summary.readsBack]
  · simp only [ofJson?, hfields, Fields.required?, List.map_cons, List.map_nil, List.lookup_cons,
      BEq.rfl, String.reduceBEq, Option.bind_eq_bind, Option.bind_some,
      Option.bind_eq_some_iff] at ha
    obtain ⟨_, -, _, hmean, _, hsummary, -⟩ := ha
    exact List.forall_mem_append.2 ⟨mean.finite _ hmean, summary.finite _ hsummary⟩

theorem RankSum.Result.demands {r : RankSum.Result} (hstatistic : Legible r.statistic)
    (hpvalue : Legible r.pvalue) : Demands r.toJson ofJson? [r.statistic, r.pvalue] := by
  have statistic := demands_float hstatistic
  have pvalue := demands_float hpvalue
  have method := demands_string r.method.name (choice? RankSum.Method.ofName?)
  have alternative := demands_string r.alternative.name (choice? RankSum.Alternative.ofName?)
  refine demands_record ["statistic", "pvalue", "method", "alternative"] (by simp) (by simp) ?_
    fun v hfields a ha => ?_
  · simp [statistic.readsBack, pvalue.readsBack, method.readsBack, alternative.readsBack]
  · simp only [ofJson?, hfields, Fields.required?, List.map_cons, List.map_nil, List.lookup_cons,
      BEq.rfl, String.reduceBEq, Option.bind_eq_bind, Option.bind_some,
      Option.bind_eq_some_iff] at ha
    obtain ⟨_, hstatistic, _, hpvalue, -⟩ := ha
    exact List.forall_mem_append.2 ⟨statistic.finite _ hstatistic, pvalue.finite _ hpvalue⟩

theorem TestLine.demands {l : TestLine} (h : ∀ x ∈ l.figures, Legible x) :
    Demands l.toJson ofJson? l.figures := by
  obtain ⟨hstatistic, hpvalue⟩ := List.forall_mem_cons.1 h
  have title := demands_string l.title string?
  have x := demands_string l.x string?
  have y := demands_string l.y string?
  have result := RankSum.Result.demands hstatistic (hpvalue _ List.mem_cons_self)
  refine demands_record ["title", "x", "y", "result"] (by simp) (by simp) ?_
    fun v hfields a ha => ?_
  · simp [title.readsBack, x.readsBack, y.readsBack, result.readsBack]
  · simp only [ofJson?, hfields, Fields.required?, List.map_cons, List.map_nil, List.lookup_cons,
      BEq.rfl, String.reduceBEq, Option.bind_eq_bind, Option.bind_some,
      Option.bind_eq_some_iff] at ha
    obtain ⟨_, -, _, -, _, -, _, hresult, -⟩ := ha
    exact result.finite _ hresult

/-! ### Outcomes and documents -/

theorem Outcome.demands {o : Outcome} (h : ∀ x ∈ o.figures, Legible x) :
    Demands o.toJson ofJson? o.figures := by
  obtain ⟨hmeans, htests⟩ := List.forall_mem_append.1 h
  have name := demands_string o.name string?
  have separator := demands_bool o.separator bool?
  have layout := demands_string o.meanLayout.name (choice? MeanLayout.ofName?)
  have means : Demands (array (o.means.map (·.toJson))) (list? MeanLine.ofJson?)
      (o.means.flatMap MeanLine.figures) :=
    demands_list fun l hl => MeanLine.demands fun x hx => hmeans x (List.mem_flatMap.2 ⟨l, hl, hx⟩)
  have tests : Demands (array (o.tests.map (·.toJson))) (list? TestLine.ofJson?)
      (o.tests.flatMap TestLine.figures) :=
    demands_list fun l hl => TestLine.demands fun x hx => htests x (List.mem_flatMap.2 ⟨l, hl, hx⟩)
  refine demands_record ["name", "separator", "mean_layout", "means", "tests"] (by simp) (by simp)
    ?_ fun v hfields a ha => ?_
  · simp [name.readsBack, separator.readsBack, layout.readsBack, means.readsBack, tests.readsBack]
  · simp only [ofJson?, hfields, Fields.required?, List.map_cons, List.map_nil, List.lookup_cons,
      BEq.rfl, String.reduceBEq, Option.bind_eq_bind, Option.bind_some,
      Option.bind_eq_some_iff] at ha
    obtain ⟨_, -, _, -, _, -, _, hmeans, _, htests, -⟩ := ha
    exact List.forall_mem_append.2 ⟨means.finite _ hmeans, tests.finite _ htests⟩

theorem Entry.demands (e : Entry) : Demands e.toJson ofJson? [] := by
  have name := demands_string e.name string?
  have description := demands_string e.description string?
  have samples := demands_nat e.samples (nat? greatestCount)
  have comparisons := demands_nat e.comparisons (nat? greatestCount)
  refine demands_record ["name", "description", "samples", "comparisons"] (by simp) (by simp) ?_
    (by simp)
  simp [name.readsBack, description.readsBack, samples.readsBack, comparisons.readsBack]

namespace Document

theorem demands {d : Document} (h : ∀ x ∈ d.figures, Legible x) :
    Demands d.toJson ofJson? d.figures := by
  have version := demands_string d.version string?
  have format := demands_string d.format string?
  have reports : Demands (array (d.outcomes.map (·.toJson))) (list? Outcome.ofJson?) d.figures :=
    demands_list fun o ho => Outcome.demands fun x hx => h x (List.mem_flatMap.2 ⟨o, ho, hx⟩)
  have catalog := demands_list fun e (_ : e ∈ d.catalog) => Entry.demands e
  refine demands_record ["version", "format", "reports", "catalog"] ?_ ?_ ?_
    fun v hfields a ha => ?_
  · unfold listField
    split_ifs <;> simp
  · unfold listField
    split_ifs <;> simp
  · unfold listField
    split_ifs <;>
      simp [version.readsBack, format.readsBack, reports.readsBack, catalog.readsBack]
  · by_cases hnone : d.outcomes = []
    · simp [figures, hnone]
    · have hsection : listField "reports" (d.outcomes.map (·.toJson)) =
          [("reports", array (d.outcomes.map (·.toJson)))] := by simp [listField, hnone]
      rw [hsection] at hfields
      simp only [ofJson?, hfields, Fields.required?, Fields.optional?, List.cons_append,
        List.nil_append, List.map_cons, List.lookup_cons, BEq.rfl, String.reduceBEq,
        Option.bind_eq_bind, Option.bind_some, Option.bind_eq_some_iff] at ha
      obtain ⟨_, -, _, -, _, hreports, -⟩ := ha
      exact reports.finite _ hreports

theorem isFinite_of_read? {d e : Document} (h : ∀ x ∈ d.figures, Legible x)
    (he : read? d.text = some e) : ∀ x ∈ d.figures, x.isFinite = true := by
  have whole := demands h
  rw [read?, text, read?_render_asRead whole.readsBack] at he
  exact whole.finite e he

/-- **A document is read back exactly if all its figures are finite**, as long as the finite ones
survive being printed. -/
theorem exists_read?_iff {d : Document} (hfits : d.Fits)
    (h : ∀ x ∈ d.figures, x.isFinite = true → Survives x) :
    (∃ e, read? d.text = some e) ↔ ∀ x ∈ d.figures, x.isFinite = true := by
  constructor
  · rintro ⟨e, he⟩
    exact isFinite_of_read? (fun x hx hfin => ⟨x, h x hx hfin⟩) he
  · intro hfin
    have whole := encodes hfits fun x hx => h x hx (hfin x hx)
    refine ⟨d, ?_⟩
    rw [read?, text, read?_render whole.readsBack]
    exact whole.decodes

/-! ### Documents of outcomes -/

theorem ofOutcomes_eq (os : List Outcome) : ofOutcomes os = { empty with outcomes := os } := by
  have hfold (d : Document) : os.foldl addOutcome d = { d with outcomes := d.outcomes ++ os } := by
    induction os generalizing d with
    | nil => simp
    | cons o os ih => simp [ih, addOutcome]
  simp [ofOutcomes, hfold, empty]

theorem figures_ofOutcomes (o : Outcome) : (ofOutcomes [o]).figures = o.figures := by
  simp [ofOutcomes_eq, figures]

theorem fits_ofOutcomes {os : List Outcome} (h : ∀ o ∈ os, ∀ l ∈ o.means, l.Fits) :
    (ofOutcomes os).Fits := by
  rw [ofOutcomes_eq]
  exact ⟨h, by simp [empty], by simp [empty]⟩

end Document

end Campaign
