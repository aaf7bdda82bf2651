import Campaign.Proofs.Document.Missing
import Campaign.Proofs.Report.Evaluation
import Campaign.Proofs.Sample.Finite

/-!
# When an outcome is finite

An outcome is finite exactly if no sample of its report overflows in one of the sums behind its mean
and its standard deviation. All other figures always are finite: the order statistics, because they
are values or lie between two of them, and the results of the comparisons.

* `Report.Moderate`: samples of a size that the rank-sum test counts without rounding;
* `Report.overflowing`: a report of finite values with an outcome that is not finite.

## Main statements

* `moderate_of_length_le`: samples of up to 28 values;
* `isFinite_figures_iff`: the outcome of a report and its document.
-/

namespace Campaign

/-- A property of the members of one list that goes over to those of the other. -/
theorem forall_mem_iff_of_forall₂ {α β : Type} {R : α → β → Prop} {p : α → Prop} {q : β → Prop}
    {as : List α} {bs : List β} (h : List.Forall₂ R as bs)
    (hR : ∀ a ∈ as, ∀ b, R a b → (q b ↔ p a)) : (∀ b ∈ bs, q b) ↔ ∀ a ∈ as, p a := by
  induction h with
  | nil => simp
  | cons hab _ ih =>
    rw [List.forall_mem_cons, List.forall_mem_cons, hR _ List.mem_cons_self _ hab,
      ih fun a ha => hR a (List.mem_cons_of_mem _ ha)]

theorem forall_mem_of_forall₂ {α β : Type} {R : α → β → Prop} {q : β → Prop} {as : List α}
    {bs : List β} (h : List.Forall₂ R as bs) (hR : ∀ a ∈ as, ∀ b, R a b → q b) : ∀ b ∈ bs, q b :=
  (forall_mem_iff_of_forall₂ (p := fun _ => True) h fun a ha b hab =>
    iff_of_true (hR a ha b hab) trivial).2 fun _ _ => trivial

namespace Report

open Binary64

section

variable {tail : Float → Float} {r : Report} {o : Outcome}

/-- A valid report without tied comparisons has an outcome. -/
theorem exists_evaluate (hvalid : r.IsValid)
    (hN : ∀ c ∈ r.comparisons, ∀ x y, r.IsOnly c.x x → r.IsOnly c.y y →
      (x.values ++ y.values).length ^ 3 < 2 ^ 53)
    (htied : ∀ c ∈ r.comparisons, ¬ r.IsTied c) : ∃ o, r.evaluate tail = .ok o := by
  obtain ⟨means, -, hevaluate⟩ := evaluate_of_isValid tail hvalid
  obtain ⟨tests, htests⟩ := (exists_mapM_eq_ok_iff (f := r.testLine tail)).2 fun c hc => by
    obtain ⟨h, -⟩ | ⟨-, line, hline⟩ := testLine_cases tail hvalid hc (hN c hc)
    · exact absurd h (htied c hc)
    · exact ⟨line, hline⟩
  rw [hevaluate, htests]
  exact ⟨_, rfl⟩

/-- Sizes up to which the rank-sum test counts without rounding, and an upper tail that is a number
for every number. -/
structure Moderate (tail : Float → Float) (r : Report) : Prop where
  samples : ∀ s ∈ r.samples, s.values.length < 2 ^ 64
  pairs : ∀ c ∈ r.comparisons, ∀ x y, r.IsOnly c.x x → r.IsOnly c.y y →
    (x.values ++ y.values).length * ((x.values ++ y.values).length + 1) ≤ 2 ^ 53
  exact : ∀ c ∈ r.comparisons, ∀ x y result, r.IsOnly c.x x → r.IsOnly c.y y →
    RankSum.test tail x.values y.values c.config = .ok result → result.method = .exact →
    (x.values.length + y.values.length).choose x.values.length ≤ 2 ^ 53
  tail : ∀ z : Float, z.isFinite = true → (tail z).isNaN = false

/-- Samples of up to 28 values are moderate. -/
theorem moderate_of_length_le (h : ∀ s ∈ r.samples, s.values.length ≤ 28)
    (htail : ∀ z : Float, z.isFinite = true → (tail z).isNaN = false) : r.Moderate tail where
  samples s hs := (h s hs).trans_lt (by norm_num)
  pairs c _ x y hx hy := by
    have hle : (x.values ++ y.values).length ≤ 56 := by
      have := h x hx.mem
      have := h y hy.mem
      rw [List.length_append]
      omega
    exact (Nat.mul_le_mul hle (Nat.succ_le_succ hle)).trans (by norm_num)
  exact c _ x y _ hx hy _ _ := by
    have hx := h x hx.mem
    have hy := h y hy.mem
    calc (x.values.length + y.values.length).choose x.values.length
        ≤ (x.values.length + 28).choose x.values.length := Nat.choose_le_choose _ (by omega)
      _ = (x.values.length + 28).choose 28 := Nat.choose_symm_add
      _ ≤ (28 + 28).choose 28 := Nat.choose_le_choose _ (by omega)
      _ ≤ 2 ^ 53 := by decide
  tail := htail

/-! ### Lines -/

theorem IsTestLine.isFinite {c : Comparison} {line : TestLine} (h : r.IsTestLine tail c line)
    (hr : r.Moderate tail) (hc : c ∈ r.comparisons) :
    line.result.statistic.isFinite = true ∧ line.result.pvalue.isFinite = true := by
  obtain ⟨x, y, hx, hy, htest⟩ := h.result
  have hN := hr.pairs c hc x y hx hy
  obtain ⟨-, herror⟩ | ⟨-, -, herror⟩ | ⟨-, -, -, herror⟩ | ⟨hcomparable, -⟩ :=
    RankSum.test_cases tail c.config x.values y.values hN
  · cases herror.symm.trans htest
  · cases herror.symm.trans htest
  · cases herror.symm.trans htest
  · obtain ⟨-, -, ⟨_, hstatistic, -⟩, hpvalue⟩ :=
      RankSum.report_of_test tail c.config hN hcomparable htest
    obtain ⟨_, hp, -⟩ := hpvalue hr.tail (hr.exact c hc x y _ hx hy htest)
    exact ⟨hstatistic.isFinite, hp.isFinite⟩

theorem IsMeanLine.rounded {s : Sample} {line : MeanLine} (h : r.IsMeanLine s line)
    (hvalid : s.validate = .ok ()) : line.mean = Rounded.of line.summary.mean r.precision := by
  have hmean := h.mean
  rw [Sample.roundedMean, mean_of_valid hvalid] at hmean
  rw [(isSummary_of h.summary).mean]
  exact (Except.ok.inj hmean).symm

theorem IsMeanLine.fits {s : Sample} {line : MeanLine} (h : r.IsMeanLine s line)
    (hvalid : s.validate = .ok ()) (hlength : s.values.length < 2 ^ 64) : line.Fits where
  precision := by
    rw [h.rounded hvalid]
    exact (Rounded.precision_le _ _).trans (by decide)
  count := by
    rw [(isSummary_of h.summary).count]
    exact Nat.le_of_lt_succ hlength

theorem IsMeanLine.isFinite {s : Sample} {line : MeanLine} (h : r.IsMeanLine s line)
    (hvalid : s.validate = .ok ()) (hlength : s.values.length < 2 ^ 64) :
    (line.summary.min.isFinite = true ∧ line.summary.max.isFinite = true ∧
        line.summary.median.isFinite = true) ∧
      ((∀ x ∈ line.figures, x.isFinite = true) ↔ s.SumsFinite) := by
  obtain ⟨hmin, hmax, hmedian, hsums⟩ := isFinite_summary hvalid hlength (isSummary_of h.summary)
  refine ⟨⟨hmin, hmax, hmedian⟩, ?_⟩
  rw [← hsums, MeanLine.figures, h.rounded hvalid]
  simp only [List.forall_mem_cons, List.not_mem_nil, false_implies, implies_true, and_true]
  exact ⟨fun h => ⟨h.2.1, h.2.2.1⟩, fun ⟨hmean, hstddev⟩ =>
    ⟨Decimal.isFinite_roundPlaces hmean _, hmean, hstddev, hmin, hmax, hmedian⟩⟩

/-! ### Outcomes -/

/-- **The outcome of a report.** It is finite exactly if no sample overflows in the sums behind its
figures; then no number of its document is missing and the document is read, and only then. All
other figures are finite. -/
theorem isFinite_figures_iff (h : r.evaluate tail = .ok o) (hr : r.Moderate tail) :
    ((∀ x ∈ o.figures, x.isFinite = true) ↔ ∀ s ∈ r.samples, s.SumsFinite) ∧
    ((∀ x ∈ o.figures, Json.ofFloat x ≠ .number Json.nullWord) ↔ ∀ s ∈ r.samples, s.SumsFinite) ∧
    (∀ l ∈ o.means, l.summary.min.isFinite = true ∧ l.summary.max.isFinite = true ∧
      l.summary.median.isFinite = true) ∧
    (∀ l ∈ o.tests, l.result.statistic.isFinite = true ∧ l.result.pvalue.isFinite = true) ∧
    ((∀ x ∈ o.figures, x.isFinite = true → Survives x) →
      ((∃ d, Document.read? (Document.ofOutcomes [o]).text = some d) ↔
        ∀ s ∈ r.samples, s.SumsFinite)) := by
  obtain ⟨hvalid, hshows⟩ := evaluate_eq_ok_iff.1 h
  have hmeans : ∀ s ∈ r.samples, ∀ l, r.IsMeanLine s l → _ := fun s hs l hline =>
    hline.isFinite (hvalid.samples s hs) (hr.samples s hs)
  have htests : ∀ l ∈ o.tests,
      l.result.statistic.isFinite = true ∧ l.result.pvalue.isFinite = true :=
    forall_mem_of_forall₂ hshows.tests fun c hc l hline => hline.isFinite hr hc
  have hfigures : (∀ x ∈ o.figures, x.isFinite = true) ↔ ∀ s ∈ r.samples, s.SumsFinite := by
    have htestFigures : ∀ x ∈ o.tests.flatMap TestLine.figures, x.isFinite = true := by
      rw [List.forall_mem_flatMap]
      simpa [TestLine.figures] using htests
    rw [Outcome.figures, List.forall_mem_append, and_iff_left htestFigures, List.forall_mem_flatMap]
    exact forall_mem_iff_of_forall₂ hshows.means fun s hs l hline => (hmeans s hs l hline).2
  have hfits : ∀ l ∈ o.means, l.Fits :=
    forall_mem_of_forall₂ hshows.means fun s hs l hline =>
      hline.fits (hvalid.samples s hs) (hr.samples s hs)
  refine ⟨hfigures, ?_, ?_, htests, fun hsurvive => ?_⟩
  · rw [← hfigures]
    simp [Json.ofFloat_eq_null_iff]
  · exact forall_mem_of_forall₂ hshows.means fun s hs l hline => (hmeans s hs l hline).1
  · have hread := Document.exists_read?_iff (d := Document.ofOutcomes [o])
      (Document.fits_ofOutcomes (by simpa using hfits))
    rw [Document.figures_ofOutcomes] at hread
    rw [hread hsurvive, hfigures]

end

/-- A report with a finite sum of values and an infinite sum of squares. -/
def steep : Report :=
  ((({ name := "steep" } : Report).sample "low" [1, 2.5]).sample "high" [3, 1e307]).addComparison
    { title := "steep", x := "low", y := "high", config := { method := .exact } }

theorem isFinite_figures_iff_of_steep : ∃ o,
    steep.evaluate RankSum.normalUpperTail = .ok o ∧ steep.Moderate RankSum.normalUpperTail ∧
      (¬ ∀ x ∈ o.figures, Json.ofFloat x ≠ .number Json.nullWord) ∧
      ∀ l ∈ o.tests, l.result.pvalue.isFinite = true := by
  have hlength : ∀ s ∈ steep.samples, s.values.length ≤ 2 := by decide
  have hmoderate : steep.Moderate RankSum.normalUpperTail :=
    moderate_of_length_le (fun s hs => (hlength s hs).trans (by decide))
      fun z _ => isNaN_of_le (RankSum.normalUpperTail_le_one z)
  have hvalid : steep.IsValid := (validate_eq_ok_iff steep).1 (by decide +kernel)
  have htied : ∀ c ∈ steep.comparisons, ¬ steep.IsTied c := by
    rintro c hc ⟨x, y, hx, hy, hequal⟩
    obtain rfl := List.mem_singleton.1 hc
    obtain rfl := hx.unique (t := ⟨"low", [1, 2.5]⟩) (by unfold IsOnly; decide +kernel)
    obtain rfl := hy.unique (t := ⟨"high", [3, 1e307]⟩) (by unfold IsOnly; decide +kernel)
    exact absurd hequal (by decide +kernel)
  obtain ⟨o, ho⟩ : ∃ o, steep.evaluate RankSum.normalUpperTail = .ok o := by
    refine exists_evaluate hvalid (fun c _ x y hx hy => ?_) htied
    have := hlength x hx.mem
    have := hlength y hy.mem
    rw [List.length_append]
    exact (Nat.pow_le_pow_left (show _ ≤ 4 by omega) 3).trans_lt (by decide)
  obtain ⟨-, hnull, -, htests, -⟩ := isFinite_figures_iff ho hmoderate
  refine ⟨o, ho, hmoderate, fun h => ?_, fun l hl => (htests l hl).2⟩
  have hsquares := ((hnull.1 h) ⟨"high", [3, 1e307]⟩ (by decide +kernel)).squares
  exact absurd (hsquares (by decide)) (by decide +kernel)

/-- A report of finite values whose sum overflows. -/
def overflowing : Report := ({ name := "overflowing" } : Report).sample "huge" [1e308, 1e308]

/-- The outcome of `overflowing`: both values are shown, and an infinite mean of them. -/
def overflown : Outcome where
  name := "overflowing"
  separator := true
  meanLayout := .inline
  means := [⟨"huge", Rounded.of (1 / 0) 2, ⟨2, 1 / 0, 1 / 0, 1e308, 1e308, 1e308⟩⟩]
  tests := []

theorem evaluate_overflowing (tail : Float → Float) :
    overflowing.evaluate tail = .ok overflown := by
  have hsorted : Sample.sorted ⟨"huge", [1e308, 1e308]⟩ = [1e308, 1e308] :=
    List.mergeSort_of_pairwise (by decide +kernel)
  have hsummary : Summary.of ⟨"huge", [1e308, 1e308]⟩ =
      .ok ⟨2, 1 / 0, 1 / 0, 1e308, 1e308, 1e308⟩ := by
    simp only [Summary.of, hsorted]
    decide +kernel
  have hmeans : overflowing.samples.mapM overflowing.meanLine = .ok overflown.means := by
    refine mapM_eq_ok_iff.2 (.cons ?_ .nil)
    rw [meanLine, hsummary]
    rfl
  have hvalid : overflowing.validate = .ok () := by decide +kernel
  rw [evaluate, hvalid]
  simp only [bind, Except.bind, hmeans]
  rfl

/-- A report of finite values has an outcome that is not finite, and its document cannot be read. -/
theorem overflown_not_read :
    overflowing.validate = .ok () ∧
      (∀ s ∈ overflowing.samples, ∀ v ∈ s.values, v.isFinite = true) ∧
      overflowing.evaluate RankSum.normalUpperTail = .ok overflown ∧
      (∃ l ∈ overflown.means, l.mean.value.isFinite = false ∧ l.summary.mean.isFinite = false ∧
        l.summary.stddev.isFinite = false ∧ Json.ofFloat l.mean.value = .number Json.nullWord) ∧
      Document.read? (Document.ofOutcomes [overflown]).text = none := by
  have hmean : overflown.means[0].mean.value.isFinite = false := by decide +kernel
  refine ⟨by decide +kernel, by decide +kernel, evaluate_overflowing _,
    ⟨overflown.means[0], List.mem_cons_self, hmean, by decide +kernel, by decide +kernel,
      Json.ofFloat_eq_null_iff.2 hmean⟩, ?_⟩
  by_contra hread
  obtain ⟨d, hd⟩ := Option.ne_none_iff_exists'.1 hread
  have hlegible : ∀ x ∈ (Document.ofOutcomes [overflown]).figures, Legible x := by
    have hsurvive : ∀ x ∈ overflown.figures, x.isFinite = true → Survives x := by decide +kernel
    rw [Document.figures_ofOutcomes]
    exact fun x hx hfin => ⟨x, hsurvive x hx hfin⟩
  have hfin := Document.isFinite_of_read? hlegible hd
  rw [Document.figures_ofOutcomes] at hfin
  exact absurd hfin (by decide +kernel)

end Report

end Campaign
