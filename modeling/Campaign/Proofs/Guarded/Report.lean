import Campaign.Chart.Layout
import Campaign.Proofs.Experiment.RoundTrip
import Campaign.Proofs.Guarded.Figures
import Campaign.Proofs.Guarded.Test
import Campaign.Proofs.Report.Evaluation

/-!
# No experiment file leads to a fault

Evaluating a report reads its samples, their sorted values, the ranks of pooled values and the table
of the null distribution by index. None of these indexes is ever missing, for whatever report; and
the chart of an experiment file that is accepted has a layout and a vertical range.

* `evaluate`: the guarded evaluation of a report.

## Main statements

* `follows_evaluate`: evaluating a report runs into no fault;
* `Experiment.evaluate_of_parse`: the reports and the chart of an experiment file.
-/

namespace Campaign

namespace Guarded

/-- The line of one sample. -/
def meanLine (r : Report) (s : Sample) : Run Report.Error MeanLine := do
  let summary ← (summary s).adapt (.sample r.name)
  return ⟨s.label, Rounded.of summary.mean r.precision, summary⟩

section

variable (tail : Float → Float)

/-- The line of one comparison. -/
def testLine (r : Report) (c : Comparison) : Run Report.Error TestLine := do
  let x ← ofExcept (r.lookUp c c.x)
  let y ← ofExcept (r.lookUp c c.y)
  let result ← (test tail x.values y.values c.config).adapt (.rankSum r.name c.title)
  return ⟨c.title, c.x, c.y, result⟩

/-- Validates a report, then summarises all samples and makes all comparisons. -/
def evaluate (r : Report) : Run Report.Error Outcome := do
  ofExcept r.validate
  let means ← r.samples.mapM (meanLine r)
  let tests ← r.comparisons.mapM (testLine tail r)
  return { name := r.name, separator := r.separator, meanLayout := r.meanLayout, means, tests }

/-! ### No fault -/

theorem follows_meanLine (r : Report) (s : Sample) : Follows (meanLine r s) (r.meanLine s) := by
  refine ((follows_summary s).adapt.bind fun summary _ => follows_pure _).of_eq ?_
  rw [Report.meanLine]
  cases Summary.of s <;> rfl

theorem follows_testLine (r : Report) (c : Comparison) :
    Follows (testLine tail r c) (r.testLine tail c) := by
  refine (follows_ofExcept _).bind fun x _ => (follows_ofExcept _).bind fun y _ => ?_
  have htest := follows_test tail x.values y.values c.config
  refine (htest.adapt.bind fun result _ => follows_pure _).of_eq ?_
  cases RankSum.test tail x.values y.values c.config <;> rfl

/-- **Evaluating a report runs into no fault**, whatever the report is. -/
theorem follows_evaluate (r : Report) : Follows (evaluate tail r) (r.evaluate tail) := by
  refine (follows_ofExcept _).bind fun _ _ => ?_
  refine (Follows.mapM fun s _ => follows_meanLine r s).bind fun means _ => ?_
  exact (Follows.mapM fun c _ => follows_testLine tail r c).bind fun tests _ => follows_pure _

end

end Guarded

/-! ### Experiment files -/

namespace Experiment

/-- **No experiment file leads to a fault.** What is read of a file that is accepted can be
evaluated and laid out: no index or slice is outside its list, no difference of indexes is below
zero, no range to clamp to is empty. A report ends in its outcome or in an error, and a chart in its
layout and its range. -/
theorem evaluate_of_parse {text : String} {e : Experiment} (h : parse text = .ok e)
    (tail : Float → Float) :
    (∀ r ∈ e.reports, (Guarded.evaluate tail r).run = .ok (r.evaluate tail)) ∧
      ∀ c ∈ e.chart, c.layout = .ok c.placements ∧ c.yRange = .ok (Chart.rangeOf c.placements) := by
  refine ⟨fun r _ => Guarded.follows_evaluate tail r, fun c hc => ?_⟩
  obtain ⟨-, -, hchart⟩ := (validate_eq_ok_iff e).1 (validate_of_parse h)
  have hlayout : c.layout = .ok c.placements := by
    rw [Chart.layout, hchart c hc]
    rfl
  exact ⟨hlayout, by rw [Chart.yRange, hlayout]; rfl⟩

/-- A report with samples of several sizes, with values that are equal, and a chart. -/
def mixed : Experiment where
  reports := [
    { name := "mixed", samples := [⟨"a", [2, -0.0, 0, 7.5]⟩, ⟨"b", [1]⟩, ⟨"c", [3, 0.5]⟩],
      comparisons := [⟨"a, b", "a", "b", ⟨.less, true, .auto⟩⟩,
        ⟨"b, c", "b", "c", ⟨.twoSided, false, .exact⟩⟩] }]
  chart := some { title := "mixed", bars := [⟨"a", -2.5, 0.5⟩, ⟨"b", 1, 0⟩] }

theorem evaluate_of_parse_mixed : parse mixed.text = .ok mixed ∧
    (∀ r ∈ mixed.reports, (Guarded.evaluate RankSum.normalUpperTail r).run =
      .ok (r.evaluate RankSum.normalUpperTail)) ∧
    ∀ c ∈ mixed.chart, c.layout = .ok c.placements ∧
      c.yRange = .ok (Chart.rangeOf c.placements) := by
  have hvalid : mixed.validate = .ok () := by decide +kernel
  have whole : Toml.Encodes Toml.maxDepth mixed.toToml ofToml? mixed := encodes hvalid 77
  have hread : Toml.read? mixed.text = some (Toml.reread mixed.toToml) :=
    Toml.read?_render whole.writable
  have hparse : parse mixed.text = .ok mixed := by
    rw [parse, hread, Option.bind_some, whole.decodes]
    simp only [hvalid]
    rfl
  exact ⟨hparse, evaluate_of_parse hparse RankSum.normalUpperTail⟩

end Experiment

end Campaign
