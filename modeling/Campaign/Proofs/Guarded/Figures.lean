import Campaign.Proofs.Guarded.Basic
import Campaign.Proofs.Sample.Figures

/-!
# Figures of a sample by index

The order statistics of a sample read the sorted values by index. The indexes of the least and the
greatest value exist because a sample that is summarised has values, and those of the neighbours of
the median because a rounded half of the greatest index stays below it.

* `percentile`, `standardDeviation`, `summary`: the guarded computations.

## Main statements

* `follows_summary`: summarising a sample runs into no fault.
-/

namespace Campaign.Guarded

open Binary64

/-- A percentile of ascending data. -/
def percentile (data : List Float) (p : Float) : Except Fault Float :=
  if data.isEmpty then return 0
  else if data.length = 1 then item data 0
  else do
    let index := p / 100 * (← difference data.length 1).toFloat
    let lower := truncate index
    let upper := ceilNat index
    if lower = upper then item data lower
    else
      let weight := index - lower.toFloat
      return (← item data lower) * (1 - weight) + (← item data upper) * weight

/-- The standard deviation of values around their mean. -/
def standardDeviation (values : List Float) (mean : Float) : Except Fault Float :=
  if 1 < values.length then do
    let freedom ← difference values.length 1
    return (sum (values.map fun v => (v - mean) * (v - mean)) / freedom.toFloat).sqrt
  else return 0

/-- The figures of a usable sample. -/
def summary (s : Sample) : Run Sample.Error Summary := do
  let mean ← ofExcept s.mean
  let count := s.values.length
  let stddev ← step (standardDeviation s.values mean)
  let sorted := s.sorted
  let min ← step (item sorted 0)
  let last ← step (difference count 1)
  let max ← step (item sorted last)
  let median ← step (percentile sorted 50)
  return { count, mean, stddev, min, max, median }

/-- A percentile whose neighbours are among the data is read without a fault. -/
theorem percentile_eq_ok {data : List Float} {p m : Float} (h : percentile? data p = some m) :
    percentile data p = .ok m := by
  rcases data with _ | ⟨v, _ | ⟨w, rest⟩⟩
  · obtain rfl : 0 = m := Option.some.inj h
    rfl
  · obtain rfl : v = m := Option.some.inj h
    rfl
  · have hlong : 1 ≤ (v :: w :: rest).length := Nat.succ_le_of_lt (Nat.succ_pos _)
    have hmany : ¬ (v :: w :: rest).length = 1 := by simp
    simp only [percentile?] at h
    simp only [percentile, List.isEmpty_cons, Bool.false_eq_true, if_false, if_neg hmany,
      difference_eq_ok hlong]
    change (if _ then _ else _) = _
    split_ifs at h ⊢
    · exact item_eq_ok h
    · simp only [Option.bind_eq_bind, Option.bind_eq_some_iff] at h
      obtain ⟨a, ha, b, hb, h⟩ := h
      obtain rfl := Option.some.inj h
      rw [item_eq_ok ha, item_eq_ok hb]
      rfl

theorem standardDeviation_eq_ok (values : List Float) (mean : Float) :
    standardDeviation values mean = .ok (Campaign.standardDeviation values mean) := by
  rw [standardDeviation, Campaign.standardDeviation]
  split_ifs with hmany
  · rw [difference_eq_ok hmany.le]
    rfl
  · rfl

/-- **Summarising a sample** runs into no fault, whether it is usable or not. -/
theorem follows_summary (s : Sample) : Follows (summary s) (Summary.of s) := by
  refine (follows_ofExcept s.mean).bind fun mean hmean => ?_
  have hvalid : s.validate = .ok () := by
    cases hvalid : s.validate with
    | error e =>
      rw [Sample.mean, hvalid] at hmean
      cases hmean
    | ok _ => rfl
  have hlength : 0 < s.values.length :=
    List.length_pos_iff.2 ((Sample.validate_eq_ok_iff s).1 hvalid).1
  have hsorted := length_sorted s
  obtain ⟨median, hmedian⟩ := exists_median s.sorted
  obtain ⟨least, hleast⟩ : ∃ v, s.sorted[0]? = some v :=
    ⟨_, List.getElem?_eq_getElem (by omega)⟩
  obtain ⟨greatest, hgreatest⟩ : ∃ v, s.sorted[s.values.length - 1]? = some v :=
    ⟨_, List.getElem?_eq_getElem (by omega)⟩
  refine .step (standardDeviation_eq_ok s.values mean) ?_
  refine .step (item_eq_ok hleast) ?_
  refine .step (difference_eq_ok hlength) ?_
  refine .step (item_eq_ok hgreatest) ?_
  refine .step (percentile_eq_ok hmedian) ?_
  rw [← hsorted, ← List.getLast?_eq_getElem?] at hgreatest
  rw [← List.head?_eq_getElem?] at hleast
  simp only [hleast, hgreatest, hmedian]
  exact follows_pure _

end Campaign.Guarded
