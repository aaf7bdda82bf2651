import Campaign.Proofs.Report.Validation

/-!
# Extending a report

A report is built step by step: a step adds a sample or a comparison at the end, or changes how the
outcome is printed. Labels are looked up from the front, and a sample that is added later has
another label, so the lines of a report stay as they are while it is extended: what it has computed
is the front of what its extensions compute. The order in which samples and comparisons are added
does not matter, only that of the samples and that of the comparisons among themselves.

Validation looks at all samples before it looks at any comparison. So the first label that is added
again is what is reported, whatever else is added before and after it.

* `Report.Step`, `Report.extend`: a step and a run of steps;
* `Report.addedSamples`, `Report.addedComparisons`: what a run adds;
* `Report.AreAdmissible`: runs that add only what can be computed.

## Main statements

* `samples_extend`, `comparisons_extend`: what a run of steps makes of a report.
* `evaluate_extend`: the evaluation of an extended report.
-/

namespace Campaign

namespace Report

/-- A step of building a report. -/
inductive Step where
  | sample (label : String) (values : List Float)
  | comparison (c : Comparison)
  | withoutSeparator
  | withMeanLayout (layout : MeanLayout)

namespace Step

/-- The report after a step. -/
def apply (r : Report) : Step → Report
  | sample label values => r.sample label values
  | comparison c => r.addComparison c
  | withoutSeparator => r.withoutSeparator
  | withMeanLayout layout => r.withMeanLayout layout

/-- The sample that a step adds, if it adds one. -/
def samples : Step → List Sample
  | sample label values => [⟨label, values⟩]
  | _ => []

/-- The comparison that a step adds, if it adds one. -/
def comparisons : Step → List Comparison
  | comparison c => [c]
  | _ => []

end Step

/-- The report after a run of steps. -/
def extend (r : Report) (steps : List Step) : Report := steps.foldl Step.apply r

/-- The samples that a run adds, in order. -/
def addedSamples (steps : List Step) : List Sample := steps.flatMap Step.samples

/-- The comparisons that a run adds, in order. -/
def addedComparisons (steps : List Step) : List Comparison := steps.flatMap Step.comparisons

/-- A run may be made from a report if each sample that it adds has a label that does not occur
before it and usable values, and each comparison that it adds is one of samples that are there, not
all tied and not too many. -/
structure AreAdmissible (r : Report) (steps : List Step) : Prop where
  samples : AreUsable (r.samples ++ addedSamples steps)
  comparisons : ∀ c ∈ addedComparisons steps, ∃ x ∈ (r.extend steps).samples,
    ∃ y ∈ (r.extend steps).samples, x.label = c.x ∧ y.label = c.y ∧
      ¬ RankSum.AllEqual (x.values ++ y.values) ∧ (x.values ++ y.values).length ^ 3 < 2 ^ 53

/-! ### What steps add -/

section

variable (r : Report) (step : Step) (steps : List Step)

theorem extend_cons : r.extend (step :: steps) = (step.apply r).extend steps := rfl

theorem samples_apply : (step.apply r).samples = r.samples ++ step.samples := by
  cases step <;> simp [Step.apply, Step.samples, sample, addComparison, withoutSeparator,
    withMeanLayout]

theorem comparisons_apply : (step.apply r).comparisons = r.comparisons ++ step.comparisons := by
  cases step <;> simp [Step.apply, Step.comparisons, sample, addComparison, withoutSeparator,
    withMeanLayout]

theorem name_apply : (step.apply r).name = r.name := by cases step <;> rfl

theorem precision_apply : (step.apply r).precision = r.precision := by cases step <;> rfl

theorem samples_extend : (r.extend steps).samples = r.samples ++ addedSamples steps := by
  induction steps generalizing r with
  | nil => exact (List.append_nil _).symm
  | cons step steps ih =>
    rw [extend_cons, ih, samples_apply, List.append_assoc]
    rfl

theorem comparisons_extend :
    (r.extend steps).comparisons = r.comparisons ++ addedComparisons steps := by
  induction steps generalizing r with
  | nil => exact (List.append_nil _).symm
  | cons step steps ih =>
    rw [extend_cons, ih, comparisons_apply, List.append_assoc]
    rfl

theorem name_extend : (r.extend steps).name = r.name := by
  induction steps generalizing r with
  | nil => rfl
  | cons step steps ih => rw [extend_cons, ih, name_apply]

theorem precision_extend : (r.extend steps).precision = r.precision := by
  induction steps generalizing r with
  | nil => rfl
  | cons step steps ih => rw [extend_cons, ih, precision_apply]

end

/-! ### Runs of steps -/

section

variable {tail : Float → Float} {r : Report} {o : Outcome} {c : Comparison} {steps : List Step}

theorem isOnly_of_mem {s : Sample} (h : r.IsValid) (hs : s ∈ r.samples) : r.IsOnly s.label s := by
  obtain ⟨t, ht⟩ := exists_isOnly h (List.mem_map_of_mem hs)
  have hmem : s ∈ r.samples.filter (·.label = s.label) := List.mem_filter.2 ⟨hs, by simp⟩
  have hsame : s ∈ [t] := by rwa [← ht]
  obtain rfl := List.mem_singleton.1 hsame
  exact ht

/-- The only sample with a label stays the only one while others get other labels. -/
theorem IsOnly.extend {label : String} {s : Sample} (h : r.IsOnly label s)
    (hnew : ((r.samples ++ addedSamples steps).map (·.label)).Nodup) :
    (r.extend steps).IsOnly label s := by
  have hs : s ∈ r.samples.filter (·.label = label) := by
    rw [h]
    exact List.mem_singleton_self s
  have hlabel : s.label = label := by simpa using (List.mem_filter.1 hs).2
  have hother : (addedSamples steps).filter (·.label = label) = [] := by
    rw [List.filter_eq_nil_iff]
    intro t ht hsame
    rw [List.map_append, List.nodup_append] at hnew
    refine hnew.2.2 s.label (List.mem_map_of_mem h.mem) t.label (List.mem_map_of_mem ht) ?_
    simp_all
  change (r.extend steps).samples.filter _ = _
  rw [samples_extend, List.filter_append, h, hother, List.append_nil]

theorem IsTestLine.extend {line : TestLine} (h : r.IsTestLine tail c line)
    (hnew : ((r.samples ++ addedSamples steps).map (·.label)).Nodup) :
    (r.extend steps).IsTestLine tail c line := by
  obtain ⟨htitle, hleft, hright, x, y, hx, hy, htest⟩ := h
  exact ⟨htitle, hleft, hright, x, y, hx.extend hnew, hy.extend hnew, htest⟩

theorem IsMeanLine.extend {s : Sample} {line : MeanLine} (h : r.IsMeanLine s line)
    (steps : List Step) : (r.extend steps).IsMeanLine s line :=
  ⟨h.label, h.summary, by rw [precision_extend, h.mean]⟩

/-- **An admissible run** keeps a report valid. -/
theorem IsValid.extend (h : r.IsValid) (hsteps : r.AreAdmissible steps) :
    (r.extend steps).IsValid := by
  have hsamples := samples_extend r steps
  refine ⟨?_, fun s hs => ?_, ?_, ?_⟩
  · rw [precision_extend]
    exact h.precision
  · rw [hsamples] at hs
    exact (Sample.validate_eq_ok_iff s).2 (hsteps.samples.values s hs)
  · rw [hsamples]
    exact hsteps.samples.labels
  · rw [comparisons_extend]
    refine List.forall_mem_append.2 ⟨fun c hc => ?_, fun c hc => ?_⟩
    · rw [hsamples, List.map_append]
      exact ⟨List.mem_append_left _ (h.comparisons c hc).1,
        List.mem_append_left _ (h.comparisons c hc).2⟩
    · obtain ⟨x, hx, y, hy, hxc, hyc, -⟩ := hsteps.comparisons c hc
      exact ⟨hxc ▸ List.mem_map_of_mem hx, hyc ▸ List.mem_map_of_mem hy⟩

/-- An admissible run adds a line for each sample and each comparison. -/
theorem exists_addedLines (tail : Float → Float) (h : r.IsValid) (hsteps : r.AreAdmissible steps) :
    ∃ means tests, List.Forall₂ (r.extend steps).IsMeanLine (addedSamples steps) means ∧
      List.Forall₂ ((r.extend steps).IsTestLine tail) (addedComparisons steps) tests := by
  have hvalid := h.extend hsteps
  have hmean : ∀ s ∈ addedSamples steps, ∃ line, (r.extend steps).meanLine s = .ok line ∧
      (r.extend steps).IsMeanLine s line := fun s hs =>
    exists_meanLine ((Sample.validate_eq_ok_iff s).2
      (hsteps.samples.values s (List.mem_append_right _ hs)))
  have htest : ∀ c ∈ addedComparisons steps, ∃ line, (r.extend steps).testLine tail c = .ok line ∧
      (r.extend steps).IsTestLine tail c line := by
    intro c hc
    obtain ⟨x, hx, y, hy, hxc, hyc, hdiffer, hsize⟩ := hsteps.comparisons c hc
    have hxonly : (r.extend steps).IsOnly c.x x := hxc ▸ isOnly_of_mem hvalid hx
    have hyonly : (r.extend steps).IsOnly c.y y := hyc ▸ isOnly_of_mem hvalid hy
    obtain ⟨hequal, -⟩ | ⟨-, result, hresult⟩ := test_of_valid tail (hvalid.samples x hx)
      (hvalid.samples y hy) hsize c.config
    · exact absurd hequal hdiffer
    · have hline := testLine_of_isOnly tail hxonly hyonly
      rw [hresult] at hline
      exact ⟨_, hline, rfl, rfl, rfl, x, y, hxonly, hyonly, hresult⟩
  obtain ⟨means, hmeans⟩ := exists_mapM_eq_ok_iff.2 fun s hs => (hmean s hs).imp fun _ h => h.1
  obtain ⟨tests, htests⟩ := exists_mapM_eq_ok_iff.2 fun c hc => (htest c hc).imp fun _ h => h.1
  refine ⟨means, tests, forall₂_of_mapM hmeans fun s hs line hline => ?_,
    forall₂_of_mapM htests fun c hc line hline => ?_⟩
  · obtain ⟨line', hline', hshows⟩ := hmean s hs
    obtain rfl := Except.ok.inj (hline'.symm.trans hline)
    exact hshows
  · obtain ⟨line', hline', hshows⟩ := htest c hc
    obtain rfl := Except.ok.inj (hline'.symm.trans hline)
    exact hshows

/-- **Extending a report.** What it has computed stays in front of what an extension computes, and
behind it are the lines of the added samples and comparisons, in order. Once a label is added again,
the report cannot be evaluated, and the first such label is what is reported. -/
theorem evaluate_extend (ho : r.evaluate tail = .ok o) :
    (∀ steps, r.AreAdmissible steps → ∃ means tests,
      (r.extend steps).evaluate tail = .ok
        { name := o.name
          separator := (r.extend steps).separator
          meanLayout := (r.extend steps).meanLayout
          means := o.means ++ means
          tests := o.tests ++ tests } ∧
      List.Forall₂ (r.extend steps).IsMeanLine (addedSamples steps) means ∧
      List.Forall₂ ((r.extend steps).IsTestLine tail) (addedComparisons steps) tests) ∧
    ∀ before label values after, AreUsable (r.samples ++ addedSamples before) →
      label ∈ (r.samples ++ addedSamples before).map (·.label) →
      (r.extend (before ++ .sample label values :: after)).evaluate tail =
        .error (.duplicateLabel r.name label) := by
  obtain ⟨hvalid, houtcome⟩ := evaluate_eq_ok_iff.1 ho
  refine ⟨fun steps hsteps => ?_, fun before label values after husable hlabel => ?_⟩
  · obtain ⟨means, tests, hmeans, htests⟩ := exists_addedLines tail hvalid hsteps
    refine ⟨means, tests, evaluate_eq_ok_iff.2 ⟨hvalid.extend hsteps, ?_, rfl, rfl, ?_, ?_⟩,
      hmeans, htests⟩
    · exact houtcome.name.trans (name_extend r steps).symm
    · rw [samples_extend]
      exact List.rel_append (houtcome.means.imp fun s line h => h.extend steps) hmeans
    · rw [comparisons_extend]
      exact List.rel_append
        (houtcome.tests.imp fun c line h => h.extend hsteps.samples.labels) htests
  · apply evaluate_of_validate
    rw [validate_eq_error_iff, ← name_extend r (before ++ .sample label values :: after)]
    have hprecision : (r.extend (before ++ .sample label values :: after)).precision ≤ 17 := by
      rw [precision_extend]
      exact hvalid.precision
    have hsamples : (r.extend (before ++ .sample label values :: after)).samples =
        (r.samples ++ addedSamples before) ++ ⟨label, values⟩ :: addedSamples after := by
      rw [samples_extend, addedSamples, List.flatMap_append, List.flatMap_cons, List.append_assoc]
      rfl
    exact .sample hprecision hsamples husable (.repeated hlabel)

/-- A report with one comparison. -/
def draft : Report :=
  (((({ name := "draft" } : Report).sample "early" [0.5, 1.5]).sample "middle" [1, 3]).compare
    "first" "early" "middle")

/-- A comparison that is added before one of its samples. -/
def additions : List Step :=
  [.comparison { title := "second", x := "early", y := "late" }, .sample "late" [2.5, -0.0],
    .withoutSeparator]

theorem exists_evaluate_draft : ∃ o, draft.evaluate RankSum.normalUpperTail = .ok o := by
  have hvalid : draft.validate = .ok () := by decide +kernel
  have hlength : ∀ s ∈ draft.samples, s.values.length ≤ 2 := by decide +kernel
  obtain ⟨hok, -⟩ := evaluate_of_valid RankSum.normalUpperTail (.inl hvalid)
    fun c _ x y hx hy => by
      have hx' := hlength x hx.mem
      have hy' := hlength y hy.mem
      rw [List.length_append]
      exact (Nat.pow_le_pow_left (Nat.add_le_add hx' hy') 3).trans_lt (by decide)
  have hearly : draft.IsOnly "early" ⟨"early", [0.5, 1.5]⟩ := by
    unfold IsOnly
    decide +kernel
  have hmiddle : draft.IsOnly "middle" ⟨"middle", [1, 3]⟩ := by
    unfold IsOnly
    decide +kernel
  refine hok.2 ?_
  rintro c hc ⟨x, y, hx, hy, hequal⟩
  obtain rfl := List.mem_singleton.1 hc
  obtain rfl := hx.unique hearly
  obtain rfl := hy.unique hmiddle
  exact absurd hequal (by decide +kernel)

theorem evaluate_extend_draft :
    ∃ o mean test, draft.evaluate RankSum.normalUpperTail = .ok o ∧
      draft.AreAdmissible additions ∧
      (draft.extend additions).evaluate RankSum.normalUpperTail = .ok
        { name := o.name, separator := false, meanLayout := .inline, means := o.means ++ [mean],
          tests := o.tests ++ [test] } ∧
      mean.label = "late" ∧ test.title = "second" ∧
      AreUsable (draft.samples ++ addedSamples additions) ∧
      "middle" ∈ (draft.samples ++ addedSamples additions).map (·.label) ∧
      (draft.extend (additions ++ .sample "middle" [] :: [.sample "late" [7]])).evaluate
        RankSum.normalUpperTail = .error (.duplicateLabel "draft" "middle") := by
  have husable : AreUsable (draft.samples ++ addedSamples additions) :=
    ⟨by decide +kernel, by decide +kernel⟩
  have hadmissible : draft.AreAdmissible additions := by
    refine ⟨husable, fun c hc => ?_⟩
    obtain rfl := List.mem_singleton.1 hc
    exact ⟨⟨"early", [0.5, 1.5]⟩, by decide +kernel, ⟨"late", [2.5, -0.0]⟩, by decide +kernel, rfl,
      rfl, by decide +kernel, by decide⟩
  have hlabel : "middle" ∈ (draft.samples ++ addedSamples additions).map (·.label) := by
    decide +kernel
  obtain ⟨o, ho⟩ := exists_evaluate_draft
  obtain ⟨hextend, hrepeat⟩ := evaluate_extend ho
  obtain ⟨means, tests, hok, hmeans, htests⟩ := hextend additions hadmissible
  obtain ⟨mean, _, hmean, hnil, rfl⟩ := List.forall₂_cons_left_iff.1 hmeans
  obtain rfl := List.forall₂_nil_left_iff.1 hnil
  obtain ⟨test, _, htest, hnil, rfl⟩ := List.forall₂_cons_left_iff.1 htests
  obtain rfl := List.forall₂_nil_left_iff.1 hnil
  exact ⟨o, mean, test, ho, hadmissible, hok, hmean.label, htest.title, husable, hlabel,
    hrepeat additions "middle" [] [.sample "late" [7]] husable hlabel⟩

end

end Report

end Campaign
