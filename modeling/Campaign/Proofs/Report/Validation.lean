import Campaign.Proofs.Report.Evaluation

/-!
# What validation reports

Validation accepts a report exactly if nothing is wrong with it. Otherwise it names the first fault:
that of the precision, else that of the first sample that has one, else that of the first comparison
that has one. A sample is judged by the samples before it, which are free of faults themselves, and
a comparison by all samples, which are then free of faults.

* `Sample.IsFault`: what is wrong with the values of a sample, with the index of the first value
  that is not finite;
* `Report.SampleFault`, `Report.ComparisonFault`: what is wrong with a member of a report;
* `Report.FirstFault`: what is wrong first with a report.

## Main statements

* `Sample.validate_eq_error_iff`, `checkSamples_eq_error_iff`, `checkComparisons_eq_error_iff`: the
  error of a sample and of both lists;
* `validate_outcome`: every outcome of a validation.
-/

namespace Campaign

/-! ### The values of a sample -/

/-- What is wrong with the values of a sample. -/
inductive Sample.IsFault (s : Sample) : Sample.Error → Prop
  | empty (h : s.values = []) : s.IsFault (.empty s.label)
  | nonFinite {k : ℕ} (hk : k < s.values.length) (h : s.values[k].isFinite = false)
      (hfirst : ∀ j, (hj : j < k) → s.values[j].isFinite = true) :
      s.IsFault (.nonFinite s.label k)

theorem Sample.validate_eq_error_iff (s : Sample) (e : Sample.Error) :
    s.validate = .error e ↔ s.IsFault e := by
  rw [Sample.validate]
  constructor
  · intro h
    split_ifs at h with hempty
    · obtain rfl := Except.error.inj h
      exact .empty (by simpa using hempty)
    · split at h
      · rename_i k hfind
        obtain rfl := Except.error.inj h
        obtain ⟨hk, hbad, hfirst⟩ := List.findIdx?_eq_some_iff_getElem.1 hfind
        exact .nonFinite hk (by simpa using hbad) fun j hj => by simpa using hfirst j hj
      · cases h
  · intro h
    cases h with
    | empty h => simp [h]
    | @nonFinite k hk h hfirst =>
      have hne : s.values.isEmpty = false := by
        rw [List.isEmpty_eq_false_iff]
        exact List.ne_nil_of_length_pos (by omega)
      have hfind : s.values.findIdx? (!·.isFinite) = some k :=
        List.findIdx?_eq_some_iff_getElem.2 ⟨hk, by simp [h], fun j hj => by simp [hfirst j hj]⟩
      simp [hne, hfind]

namespace Report

/-! ### Samples -/

/-- What is wrong with a sample behind samples with the given labels: that it repeats one of them
comes before what is wrong with its values. -/
inductive SampleFault (report : String) (earlier : List String) (s : Sample) : Error → Prop
  | repeated (h : s.label ∈ earlier) :
      SampleFault report earlier s (.duplicateLabel report s.label)
  | unusable {e : Sample.Error} (hnew : s.label ∉ earlier) (h : s.IsFault e) :
      SampleFault report earlier s (.sample report e)

/-- Samples without a fault: their labels differ, and they have values, all of them finite. -/
structure AreUsable (samples : List Sample) : Prop where
  labels : (samples.map (·.label)).Nodup
  values : ∀ s ∈ samples, s.values ≠ [] ∧ ∀ v ∈ s.values, v.isFinite = true

section

variable {report : String} {e : Error}

/-- The order of the earlier labels does not matter. -/
theorem sampleFault_reverse {earlier : List String} {s : Sample} :
    SampleFault report earlier.reverse s e ↔ SampleFault report earlier s e := by
  constructor
  · rintro (h | ⟨hnew, h⟩)
    · exact .repeated (List.mem_reverse.1 h)
    · exact .unusable (fun hmem => hnew (List.mem_reverse.2 hmem)) h
  · rintro (h | ⟨hnew, h⟩)
    · exact .repeated (List.mem_reverse.2 h)
    · exact .unusable (fun hmem => hnew (List.mem_reverse.1 hmem)) h

theorem checkSamples_nil_eq_ok_iff {samples : List Sample} :
    checkSamples report [] samples = .ok () ↔ AreUsable samples := by
  simp only [checkSamples_eq_ok_iff, List.not_mem_nil, not_false_eq_true, true_and,
    Sample.validate_eq_ok_iff]
  exact ⟨fun h => ⟨h.2, h.1⟩, fun h => ⟨h.values, h.labels⟩⟩

/-- Behind samples that pass, all their labels have been seen. -/
theorem checkSamples_append (seen : List String) (before rest : List Sample) :
    checkSamples report seen (before ++ rest) =
      (checkSamples report seen before).bind fun _ =>
        checkSamples report ((before.map (·.label)).reverse ++ seen) rest := by
  induction before generalizing seen with
  | nil => rfl
  | cons s before ih =>
    rw [List.cons_append, checkSamples, checkSamples]
    split_ifs
    · rfl
    · cases s.validate with
      | error e => rfl
      | ok _ => simp [ih]

/-- **The error of a list of samples** is the fault of the first one that has a fault. -/
theorem checkSamples_eq_error_iff {seen : List String} {samples : List Sample} :
    checkSamples report seen samples = .error e ↔ ∃ before s after,
      samples = before ++ s :: after ∧ checkSamples report seen before = .ok () ∧
        SampleFault report ((before.map (·.label)).reverse ++ seen) s e := by
  constructor
  · intro h
    induction samples generalizing seen with
    | nil => cases h
    | cons s samples ih =>
      rw [checkSamples] at h
      split_ifs at h with hseen
      · obtain rfl := Except.error.inj h
        exact ⟨[], s, samples, rfl, rfl, .repeated hseen⟩
      · cases hvalid : s.validate with
        | error fault =>
          rw [hvalid] at h
          obtain rfl := Except.error.inj h
          exact ⟨[], s, samples, rfl, rfl,
            .unusable hseen ((Sample.validate_eq_error_iff s fault).1 hvalid)⟩
        | ok _ =>
          rw [hvalid] at h
          obtain ⟨before, t, after, rfl, hbefore, ht⟩ := ih h
          refine ⟨s :: before, t, after, rfl, ?_, by simpa using ht⟩
          rw [checkSamples, if_neg hseen, hvalid]
          exact hbefore
  · rintro ⟨before, s, after, rfl, hbefore, hs⟩
    rw [checkSamples_append, hbefore, Except.bind, checkSamples]
    cases hs with
    | repeated h => rw [if_pos h]
    | unusable hnew h => rw [if_neg hnew, (Sample.validate_eq_error_iff s _).2 h]

end

/-! ### Comparisons -/

/-- What is wrong with a comparison of samples with the given labels, its first sample first. -/
inductive ComparisonFault (report : String) (labels : List String) (c : Comparison) : Error → Prop
  | left (h : c.x ∉ labels) : ComparisonFault report labels c (.unknownSample report c.title c.x)
  | right (hx : c.x ∈ labels) (h : c.y ∉ labels) :
      ComparisonFault report labels c (.unknownSample report c.title c.y)

/-- **The error of a list of comparisons** is the fault of the first one that has a fault. -/
theorem checkComparisons_eq_error_iff {report : String} {e : Error} {labels : List String}
    {cs : List Comparison} :
    checkComparisons report labels cs = .error e ↔ ∃ before c after, cs = before ++ c :: after ∧
      (∀ b ∈ before, b.x ∈ labels ∧ b.y ∈ labels) ∧ ComparisonFault report labels c e := by
  constructor
  · intro h
    induction cs with
    | nil => cases h
    | cons c cs ih =>
      rw [checkComparisons] at h
      split_ifs at h with hx hy
      · obtain ⟨before, d, after, rfl, hbefore, hd⟩ := ih h
        exact ⟨c :: before, d, after, rfl, List.forall_mem_cons.2 ⟨⟨hx, hy⟩, hbefore⟩, hd⟩
      · obtain rfl := Except.error.inj h
        exact ⟨[], c, cs, rfl, by simp, .right hx hy⟩
      · obtain rfl := Except.error.inj h
        exact ⟨[], c, cs, rfl, by simp, .left hx⟩
  · rintro ⟨before, c, after, rfl, hbefore, hc⟩
    induction before with
    | nil => cases hc <;> simp [checkComparisons, *]
    | cons b before ih =>
      obtain ⟨⟨hx, hy⟩, hbefore⟩ := List.forall_mem_cons.1 hbefore
      rw [List.cons_append, checkComparisons, if_neg (not_not.2 hx), if_neg (not_not.2 hy),
        ih hbefore]

/-! ### Reports -/

/-- What is wrong first with a report. -/
inductive FirstFault (r : Report) : Error → Prop
  | precision (h : 17 < r.precision) : r.FirstFault (.precision r.name r.precision 17)
  | sample {before : List Sample} {s : Sample} {after : List Sample} {e : Error}
      (hprecision : r.precision ≤ 17) (hsplit : r.samples = before ++ s :: after)
      (hbefore : AreUsable before) (h : SampleFault r.name (before.map (·.label)) s e) :
      r.FirstFault e
  | comparison {before : List Comparison} {c : Comparison} {after : List Comparison} {e : Error}
      (hprecision : r.precision ≤ 17) (hsamples : AreUsable r.samples)
      (hsplit : r.comparisons = before ++ c :: after)
      (hbefore : ∀ b ∈ before,
        b.x ∈ r.samples.map (·.label) ∧ b.y ∈ r.samples.map (·.label))
      (h : ComparisonFault r.name (r.samples.map (·.label)) c e) : r.FirstFault e

theorem validate_eq_error_iff (r : Report) (e : Error) :
    r.validate = .error e ↔ r.FirstFault e := by
  rw [validate_eq]
  constructor
  · intro h
    split_ifs at h with hprecision
    · obtain rfl := Except.error.inj h
      exact .precision hprecision
    · cases hsamples : checkSamples r.name [] r.samples with
      | error fault =>
        rw [hsamples] at h
        obtain rfl := Except.error.inj h
        obtain ⟨before, s, after, hsplit, hbefore, hs⟩ := checkSamples_eq_error_iff.1 hsamples
        rw [List.append_nil, sampleFault_reverse] at hs
        exact .sample (not_lt.1 hprecision) hsplit (checkSamples_nil_eq_ok_iff.1 hbefore) hs
      | ok _ =>
        rw [hsamples] at h
        obtain ⟨before, c, after, hsplit, hbefore, hc⟩ := checkComparisons_eq_error_iff.1 h
        exact .comparison (not_lt.1 hprecision) (checkSamples_nil_eq_ok_iff.1 hsamples) hsplit
          hbefore hc
  · intro h
    cases h with
    | precision h => exact if_pos h
    | sample hprecision hsplit hbefore hs =>
      have hle : ¬ maxPrecision < r.precision := not_lt.2 hprecision
      have hsamples : checkSamples r.name [] r.samples = .error e :=
        checkSamples_eq_error_iff.2 ⟨_, _, _, hsplit, checkSamples_nil_eq_ok_iff.2 hbefore, by
          rwa [List.append_nil, sampleFault_reverse]⟩
      rw [if_neg hle, hsamples]
      rfl
    | comparison hprecision hsamples hsplit hbefore hc =>
      have hle : ¬ maxPrecision < r.precision := not_lt.2 hprecision
      rw [if_neg hle, checkSamples_nil_eq_ok_iff.2 hsamples, Except.bind]
      exact checkComparisons_eq_error_iff.2 ⟨_, _, _, hsplit, hbefore, hc⟩

/-- **Every outcome of a validation.** A report passes exactly if its precision is not too high, its
labels differ, its samples have values, all of them finite, and its comparisons name samples;
otherwise the error is the first fault. -/
theorem validate_outcome (r : Report) :
    (r.validate = .ok () ↔ r.precision ≤ 17 ∧ (r.samples.map (·.label)).Nodup ∧
      (∀ s ∈ r.samples, s.values ≠ [] ∧ ∀ v ∈ s.values, v.isFinite = true) ∧
      ∀ c ∈ r.comparisons, (∃ s ∈ r.samples, s.label = c.x) ∧ ∃ s ∈ r.samples, s.label = c.y) ∧
    ∀ e, r.validate = .error e ↔ r.FirstFault e := by
  refine ⟨?_, validate_eq_error_iff r⟩
  rw [validate_eq_ok_iff]
  simp only [← List.mem_map, ← Sample.validate_eq_ok_iff]
  exact ⟨fun h => ⟨h.precision, h.labels, h.samples, h.comparisons⟩,
    fun ⟨hprecision, hlabels, hsamples, hcomparisons⟩ =>
      ⟨hprecision, hsamples, hlabels, hcomparisons⟩⟩

end Report

end Campaign
