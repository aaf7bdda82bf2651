import Campaign.Proofs.Binary64.Sums
import Campaign.Sample.Summary

/-!
# Every usable sample has figures

The median of ascending data lies between two neighbours, and both neighbours are in the data,
however many there are: the index of the lower one is a rounded half of the greatest index, and
rounding does not take it up to the greatest index itself.

## Main statements

* `truncate_half_lt`: the index of the lower neighbour.
* `median_eq`: the median of at least two values, by its neighbours.
* `exists_median`: all data have a median.
* `exists_summary`: all usable samples have figures.
-/

namespace Campaign

open Binary64

/-! ### The neighbours of the median -/

theorem half_eq : (50 / 100 : Float) = 0.5 := by decide +kernel

theorem truncate_lt (x : Float) : truncate x < 2 ^ 64 := UInt64.toNat_lt x.toUInt64

theorem ceilNat_le (x : Float) : ceilNat x ≤ truncate x + 1 := by
  simp only [ceilNat]
  split_ifs
  · exact le_rfl
  · exact Nat.le_succ _

theorem truncate_lt_of_hasValue {x : Float} {r : ℝ} {d : ℕ} (hx : HasValue x r) (h0 : 0 ≤ r)
    (h1 : r < d) : truncate x < d := by
  obtain h | h := Nat.lt_or_ge d (2 ^ 64)
  · rw [truncate_eq hx h0 (h1.trans (by exact_mod_cast h))]
    exact (Nat.floor_lt h0).2 h1
  · exact (truncate_lt x).trans_le h

/-- A number above `2^53` is rounded twice on the way to its half, by far less than half of it. -/
theorem exists_hasValue_half_of_large {d : ℕ} (h : 2 ^ 53 < d) (h' : d < 2 ^ 64) :
    ∃ r, HasValue (0.5 * d.toFloat) r ∧ 0 ≤ r ∧ r < d := by
  have hd : (2 : ℝ) ^ 53 < d := by exact_mod_cast h
  have hd' : |(d : ℝ)| ≤ 2 ^ 64 := by
    rw [Nat.abs_cast]
    exact_mod_cast h'.le
  have hvalue := hasValue_natCast_nearest (abs_nearest_lt (by norm_num) hd')
  have hlow : (2 : ℝ) ^ 53 ≤ nearest d := le_nearest (onGrid_pow 53) hd.le
  have hhigh : nearest (d : ℝ) ≤ d * growth := nearest_le_mul_growth (by linarith)
  have hbelow : nearest (d : ℝ) ≤ 2 ^ 64 :=
    (le_abs_self _).trans (abs_nearest_le (onGrid_pow 64) hd')
  have hhalf : (1 : ℝ) ≤ 1 / 2 * nearest d := by linarith
  have hrounded := nearest_le_mul_growth hhalf
  have hmul := hasValue_half.mul hvalue (abs_nearest_lt (k := 64) (by norm_num) (by
    rw [abs_of_nonneg (by linarith)]
    linarith))
  refine ⟨_, hmul, nearest_nonneg (by linarith), hrounded.trans_lt ?_⟩
  have hgrowth : growth ≤ 1 + 1 / 4 := by
    unfold growth
    norm_num
  have hgrowth' := one_le_growth
  calc 1 / 2 * nearest (d : ℝ) * growth ≤ 1 / 2 * (d * (1 + 1 / 4)) * (1 + 1 / 4) := by
        gcongr
        exact hhigh.trans (by gcongr)
    _ < d := by linarith

theorem hasValue_half_mul {d : ℕ} (h : d ≤ 2 ^ 53) : HasValue (0.5 * d.toFloat) (d / 2) := by
  have hgrid := onGrid_half (n := d) (isSmall_natCast.2 h)
  have hlt := half_lt_overflow (a := d) (isSmall_natCast.2 h)
  rw [Int.cast_natCast, div_eq_inv_mul, ← one_div] at hgrid hlt
  rw [div_eq_inv_mul, ← one_div]
  exact hasValue_half.mul_exact (hasValue_natCast h) hgrid hlt

/-- **The lower neighbour of the median** is below the greatest index. -/
theorem truncate_half_lt {d : ℕ} (h : 1 ≤ d) : truncate (0.5 * d.toFloat) < d := by
  have hpos : (0 : ℝ) < d := by exact_mod_cast h
  obtain hsmall | hlarge := Nat.lt_or_ge (2 ^ 53) d
  · obtain hbound | hbound := Nat.lt_or_ge d (2 ^ 64)
    · obtain ⟨r, hr, h0, h1⟩ := exists_hasValue_half_of_large hsmall hbound
      exact truncate_lt_of_hasValue hr h0 h1
    · exact (truncate_lt _).trans_le hbound
  · exact truncate_lt_of_hasValue (hasValue_half_mul hlarge) (by positivity) (by linarith)

/-- The median of two values or more. -/
theorem median_eq {data : List Float} (h : 2 ≤ data.length) :
    percentile? data 50 =
      let index := 0.5 * (data.length - 1).toFloat
      if truncate index = ceilNat index then data[truncate index]?
      else do
        let a ← data[truncate index]?
        let b ← data[ceilNat index]?
        let weight := index - (truncate index).toFloat
        return a * (1 - weight) + b * weight := by
  rw [← half_eq]
  rcases data with _ | ⟨v, _ | ⟨w, rest⟩⟩
  · simp at h
  · simp at h
  · rfl

/-- **All data have a median.** -/
theorem exists_median (data : List Float) : ∃ m, percentile? data 50 = some m := by
  rcases data with _ | ⟨v, _ | ⟨w, rest⟩⟩
  · exact ⟨0, rfl⟩
  · exact ⟨v, rfl⟩
  · set data := v :: w :: rest with hdata
    have hlength : data.length - 1 + 1 = data.length := by simp [hdata]
    have hlower : truncate (0.5 * (data.length - 1).toFloat) < data.length - 1 :=
      truncate_half_lt (by simp [hdata])
    have hupper := ceilNat_le (0.5 * (data.length - 1).toFloat)
    have hleft := List.getElem?_eq_getElem (l := data)
      (i := truncate (0.5 * (data.length - 1).toFloat)) (by omega)
    have hright := List.getElem?_eq_getElem (l := data)
      (i := ceilNat (0.5 * (data.length - 1).toFloat)) (by omega)
    rw [median_eq (by simp [hdata])]
    simp only [hleft, hright]
    split_ifs
    · exact ⟨_, rfl⟩
    · exact ⟨_, rfl⟩

/-! ### Summaries -/

theorem length_sorted (s : Sample) : s.sorted.length = s.values.length :=
  List.length_mergeSort ..

theorem mean_of_valid {s : Sample} (h : s.validate = .ok ()) :
    s.mean = .ok (sum s.values / s.values.length.toFloat) := by
  rw [Sample.mean, h]
  rfl

/-- **A usable sample has figures.** -/
theorem exists_summary {s : Sample} (h : s.validate = .ok ()) :
    ∃ m, Summary.of s = .ok m ∧ s.mean = .ok m.mean := by
  have hne : s.sorted ≠ [] := by
    rw [← List.length_pos_iff, length_sorted, List.length_pos_iff]
    exact ((Sample.validate_eq_ok_iff s).1 h).1
  have hmean := mean_of_valid h
  obtain ⟨median, hmedian⟩ := exists_median s.sorted
  have hhead := List.head?_eq_some_head hne
  have hlast := List.getLast?_eq_some_getLast hne
  set mean := sum s.values / s.values.length.toFloat
  refine ⟨⟨s.values.length, mean, standardDeviation s.values mean, s.sorted.head hne,
    s.sorted.getLast hne, median⟩, ?_, hmean⟩
  simp only [Summary.of, hmean, hhead, hlast, hmedian]
  rfl

end Campaign
