import Campaign.Proofs.RankSum.Passes
import Campaign.RankSum.NullDistribution

/-!
# The table of the permutation distribution

Where the numbers of arrangements are small integers, the table holds them exactly, and sums of its
places are exact too. So both tails are shares of all arrangements, whichever end of the table is
summed.

## Main statements

* `getElem_counts`, `countSum_tabulate`: places of the table and sums of them.
* `upperTail_tabulate`: the probability of a value that is at least a number rounded down.
* `tabulate_permutation_distribution`: the table is the permutation distribution.
-/

namespace Campaign.RankSum

open Binary64 Finset Polynomial

namespace NullDistribution

variable {n₁ n₂ : ℕ}

theorem maxU_tabulate (n₁ n₂ : ℕ) : (tabulate n₁ n₂).maxU = n₁ * n₂ :=
  min_mul_max n₁ n₂

theorem count_min (n₁ n₂ k : ℕ) : count (min n₁ n₂) (max n₁ n₂) k = count n₁ n₂ k := by
  rcases le_total n₁ n₂ with h | h
  · rw [min_eq_left h, max_eq_right h]
  · rw [min_eq_right h, max_eq_left h, count_comm]

/-- The table is exact if each of its numbers is one that a double holds. -/
theorem getElem_counts_of_count_le (h : ∀ k, count n₁ n₂ k ≤ 2 ^ 53) {k : ℕ}
    (hk : k < (tabulate n₁ n₂).maxU + 1) :
    (tabulate n₁ n₂).counts[k] = (count n₁ n₂ k).toFloat := by
  have htable := Gaussian.tabulates_partialCoefficients (min n₁ n₂) fun k =>
    (count_min n₁ n₂ k).trans_le (h k)
  have hcounts := htable k hk
  rw [coeff_box, count_min] at hcounts
  simp only [counts_tabulate]
  exact hcounts

theorem toList_counts (h : ∀ k, count n₁ n₂ k ≤ 2 ^ 53) :
    (tabulate n₁ n₂).counts.toList =
      (List.range (n₁ * n₂ + 1)).map fun k => (count n₁ n₂ k).toFloat := by
  refine List.ext_getElem (by simp [maxU_tabulate]) fun k hk _ => ?_
  rw [Vector.getElem_toList, getElem_counts_of_count_le h, List.getElem_map, List.getElem_range]

theorem getElem_counts (h : (n₁ + n₂).choose n₁ ≤ 2 ^ 53) {k : ℕ}
    (hk : k < (tabulate n₁ n₂).maxU + 1) :
    (tabulate n₁ n₂).counts[k] = (count n₁ n₂ k).toFloat :=
  getElem_counts_of_count_le (fun k => (count_le n₁ n₂ k).trans h) hk

theorem countSum_tabulate (h : (n₁ + n₂).choose n₁ ≤ 2 ^ 53) {a b : ℕ} (hab : a < b)
    (hb : b ≤ n₁ * n₂ + 1) :
    (tabulate n₁ n₂).countSum a b = (∑ k ∈ Ico a b, count n₁ n₂ k).toFloat := by
  have hsize : b ≤ (tabulate n₁ n₂).maxU + 1 := by rwa [maxU_tabulate]
  have hlist : ((tabulate n₁ n₂).counts.toArray.extract a b).toList =
      ((List.range' a (b - a)).map (count n₁ n₂)).map Nat.toFloat := by
    refine List.ext_getElem ?_ fun i h₁ h₂ => ?_
    · simp; omega
    · simp only [List.length_map, List.length_range'] at h₂
      simp [getElem_counts h (show a + i < (tabulate n₁ n₂).maxU + 1 by omega)]
  have hne : (List.range' a (b - a)).map (count n₁ n₂) ≠ [] := by
    simp; omega
  have hsum : ((List.range' a (b - a)).map (count n₁ n₂)).sum = ∑ k ∈ Ico a b, count n₁ n₂ k := rfl
  rw [countSum, ← Array.foldl_toList, hlist, ← hsum]
  exact sum_toFloat hne (by rw [hsum]; exact (sum_count_le _ _ _ _).trans h)

theorem arrangements_tabulate (h : (n₁ + n₂).choose n₁ ≤ 2 ^ 53) :
    (tabulate n₁ n₂).arrangements = ((n₁ + n₂).choose n₁).toFloat := by
  have hall : (tabulate n₁ n₂).arrangements =
      (tabulate n₁ n₂).countSum 0 ((tabulate n₁ n₂).maxU + 1) := by
    rw [countSum, Array.extract_eq_self_of_le (by simp)]
    rfl
  rw [hall, maxU_tabulate, countSum_tabulate h (Nat.succ_pos _) le_rfl, sum_count_tail,
    countAtLeast_zero]

theorem of_tabulate?_eq_some {d : NullDistribution} (hd : tabulate? n₁ n₂ = some d) :
    n₁ * n₂ ≤ maxCells ∧ d = tabulate n₁ n₂ := by
  simp only [tabulate?] at hd
  split_ifs at hd with hcells hfin
  exact ⟨not_lt.1 hcells, (Option.some.inj hd).symm⟩

theorem tabulate?_of_isFinite (hcells : n₁ * n₂ ≤ maxCells)
    (hall : (tabulate n₁ n₂).arrangements.isFinite = true)
    (hcounts : ∀ k (hk : k < (tabulate n₁ n₂).maxU + 1),
      (tabulate n₁ n₂).counts[k].isFinite = true) :
    tabulate? n₁ n₂ = some (tabulate n₁ n₂) := by
  have hfin : ((tabulate n₁ n₂).arrangements.isFinite &&
      (tabulate n₁ n₂).counts.all Float.isFinite) = true := by
    rw [Bool.and_eq_true, Vector.all_eq_true]
    exact ⟨hall, hcounts⟩
  simp only [tabulate?, if_neg (not_lt.2 hcells), if_pos hfin]

theorem tabulate?_eq_some (hcells : n₁ * n₂ ≤ maxCells) (h : (n₁ + n₂).choose n₁ ≤ 2 ^ 53) :
    tabulate? n₁ n₂ = some (tabulate n₁ n₂) := by
  refine tabulate?_of_isFinite hcells ?_ fun k hk => ?_
  · rw [arrangements_tabulate h]
    exact (hasValue_natCast h).isFinite
  · rw [getElem_counts h hk]
    exact (hasValue_natCast ((count_le _ _ _).trans h)).isFinite

/-! ### Tails -/

/-- A part of all arrangements, as a double between zero and one. -/
theorem exists_hasValue_share {a b : ℕ} (hab : a ≤ b) (hb : 0 < b) (h : b ≤ 2 ^ 53) :
    ∃ p, HasValue (a.toFloat / b.toFloat) p ∧ 0 ≤ p ∧ p ≤ 1 := by
  have hb' : (0 : ℝ) < b := by exact_mod_cast hb
  have h0 := nearest_nonneg (div_nonneg (Nat.cast_nonneg (α := ℝ) a) hb'.le)
  have h1 : nearest (a / b) ≤ 1 := by
    refine nearest_le onGrid_one ?_
    rw [div_le_one hb']
    exact_mod_cast hab
  refine ⟨nearest (a / b), (hasValue_natCast (hab.trans h)).div (hasValue_natCast h) hb'.ne' ?_,
    h0, h1⟩
  rw [abs_of_nonneg h0]
  exact h1.trans_lt (one_lt_pow₀ one_lt_two (by norm_num))

/-- A part of all arrangements grows with their number. -/
theorem toReal_div_mono {a a' b : ℕ} (haa : a ≤ a') (hab : a' ≤ b) (hb : 0 < b) (h : b ≤ 2 ^ 53) :
    toReal (a.toFloat / b.toFloat) ≤ toReal (a'.toFloat / b.toFloat) := by
  have hquotient : ∀ n ≤ b, toReal (n.toFloat / b.toFloat) = nearest (n / b) := fun n hn => by
    have hle : |(n : ℝ) / b| ≤ 2 ^ 0 := by
      rw [pow_zero, abs_of_nonneg (by positivity)]
      exact div_le_one_of_le₀ (by exact_mod_cast hn) (Nat.cast_nonneg b)
    exact ((hasValue_natCast (hn.trans h)).div (hasValue_natCast h) (by exact_mod_cast hb.ne')
      (abs_nearest_lt (by norm_num) hle)).toReal_eq
  rw [hquotient a (haa.trans hab), hquotient a' hab]
  exact nearest_mono (div_le_div_of_nonneg_right (by exact_mod_cast haa) (Nat.cast_nonneg b))

theorem toFloat_div_self {b : ℕ} (hb : 0 < b) (h : b ≤ 2 ^ 53) : b.toFloat / b.toFloat = 1 := by
  have hb' : (b : ℝ) ≠ 0 := by exact_mod_cast hb.ne'
  have hone : OnGrid ((b : ℝ) / b) := by
    rw [div_self hb']
    exact onGrid_one
  have hvalue := (hasValue_natCast h).div_exact (hasValue_natCast h) hb' hone (by
    rw [div_self hb', abs_one]
    exact one_lt_pow₀ one_lt_two (by norm_num))
  rw [div_self hb'] at hvalue
  exact hvalue.eq hasValue_one one_ne_zero

theorem choose_pos (n₁ n₂ : ℕ) : 0 < (n₁ + n₂).choose n₁ := Nat.choose_pos (Nat.le_add_right _ _)

theorem toFloat_zero_div {b : ℕ} (hb : 0 < b) (h : b ≤ 2 ^ 53) :
    (0 : ℕ).toFloat / b.toFloat = 0 :=
  (hasValue_natCast h).zero_div (by exact_mod_cast hb)

/-- **Either end of the table.** The counts from `k` up have the sum of as many from the bottom. -/
theorem countSum_mirrored (h : (n₁ + n₂).choose n₁ ≤ 2 ^ 53) {k : ℕ} (hk : k ≤ n₁ * n₂) :
    (tabulate n₁ n₂).countSum 0 (n₁ * n₂ - k + 1) = (countAtLeast n₁ n₂ k).toFloat ∧
      (tabulate n₁ n₂).countSum k (n₁ * n₂ + 1) = (countAtLeast n₁ n₂ k).toFloat := by
  constructor
  · rw [countSum_tabulate h (Nat.succ_pos _) (by omega), sum_count_head hk]
  · rw [countSum_tabulate h (by omega) le_rfl, sum_count_tail]

/-- **The upper tail.** Whichever end of the table is summed, it is the share of the arrangements
with at least the whole part of the statistic. -/
theorem upperTail_of_pos (h : (n₁ + n₂).choose n₁ ≤ 2 ^ 53) {u : Float} (hu : ¬ u ≤ 0) :
    (tabulate n₁ n₂).upperTail u =
      (countAtLeast n₁ n₂ (truncate u)).toFloat / ((n₁ + n₂).choose n₁).toFloat := by
  obtain ⟨p, hp, hp0, hp1⟩ :=
    exists_hasValue_share (countAtLeast_le n₁ n₂ (truncate u)) (choose_pos n₁ n₂) h
  rw [upperTail, if_neg hu]
  simp only [maxU_tabulate, arrangements_tabulate h]
  split_ifs with hmax hshort
  · rw [countAtLeast_eq_zero hmax, toFloat_zero_div (choose_pos n₁ n₂) h]
  · rw [(countSum_mirrored h (not_lt.1 hmax)).1, clamp_eq hp hp0 hp1]
  · rw [(countSum_mirrored h (not_lt.1 hmax)).2, clamp_eq hp hp0 hp1]

theorem upperTail_tabulate (h : (n₁ + n₂).choose n₁ ≤ 2 ^ 53) (hcells : n₁ * n₂ < 2 ^ 64)
    {u : Float} {r : ℝ} (hu : HasValue u r) (h0 : 0 ≤ r) (hr : r ≤ (n₁ * n₂ : ℕ)) :
    (tabulate n₁ n₂).upperTail u =
      (countAtLeast n₁ n₂ ⌊r⌋₊).toFloat / ((n₁ + n₂).choose n₁).toFloat := by
  by_cases hle : u ≤ 0
  · obtain rfl : r = 0 := le_antisymm ((hu.le_iff hasValue_zero).1 hle) h0
    rw [upperTail, if_pos hle, Nat.floor_zero, countAtLeast_zero,
      toFloat_div_self (choose_pos n₁ n₂) h]
  · rw [upperTail_of_pos h hle, truncate_eq hu h0 (hr.trans_lt (by exact_mod_cast hcells))]

/-! ### The distribution as a whole -/

/-- **The table is the permutation distribution.** As long as the number of all arrangements is a
whole number that a double holds exactly, every place of the table holds the number of
arrangements with that statistic. -/
theorem tabulate_permutation_distribution (n₁ n₂ : ℕ) (h : (n₁ + n₂).choose n₁ ≤ 2 ^ 53) :
    (tabulate n₁ n₂).maxU = n₁ * n₂ ∧
      (tabulate n₁ n₂).arrangements = ((n₁ + n₂).choose n₁).toFloat ∧
      HasValue (tabulate n₁ n₂).arrangements ((n₁ + n₂).choose n₁) ∧
      (∀ k (hk : k < (tabulate n₁ n₂).maxU + 1),
        (tabulate n₁ n₂).counts[k] = (count n₁ n₂ k).toFloat ∧
          HasValue (tabulate n₁ n₂).counts[k] (count n₁ n₂ k)) ∧
      ∀ k, (tabulate n₁ n₂).pmf k =
        if k ≤ n₁ * n₂ then (count n₁ n₂ k).toFloat / ((n₁ + n₂).choose n₁).toFloat else 0 := by
  refine ⟨maxU_tabulate n₁ n₂, arrangements_tabulate h, ?_, fun k hk => ⟨getElem_counts h hk, ?_⟩,
    fun k => ?_⟩
  · rw [arrangements_tabulate h]
    exact hasValue_natCast h
  · rw [getElem_counts h hk]
    exact hasValue_natCast ((count_le _ _ _).trans h)
  · unfold pmf
    split_ifs with hk hle hle
    · rw [getElem_counts h hk, arrangements_tabulate h]
    · rw [maxU_tabulate] at hk; omega
    · rw [maxU_tabulate] at hk; omega
    · rfl

theorem tabulate_three_three :
    (3 + 3).choose 3 ≤ 2 ^ 53 ∧ (tabulate 3 3).maxU = 9 ∧
      (tabulate 3 3).arrangements = (20 : ℕ).toFloat ∧
      (tabulate 3 3).pmf 4 = (3 : ℕ).toFloat / (20 : ℕ).toFloat ∧ (tabulate 3 3).pmf 10 = 0 := by
  obtain ⟨hmax, hall, -, -, hpmf⟩ := tabulate_permutation_distribution 3 3 (by decide)
  have hcount : count 3 3 4 = 3 := by decide +kernel
  have h₄ := hpmf 4
  rw [if_pos (by decide), hcount] at h₄
  exact ⟨by decide, hmax, hall, h₄, (hpmf 10).trans (if_neg (by decide))⟩

end NullDistribution

end Campaign.RankSum
