import Campaign.Proofs.Binary64.Sides
import Campaign.Proofs.RankSum.Rounded

/-!
# The mirrored table

The permutation distribution is symmetric, and the shorter of two equal tails is summed. In doubles
the table is symmetric as long as each of its numbers is one that a double holds. The number of all
arrangements may be far greater: it is only what the numbers are divided by.

## Main statements

* `count_mirrored`: a statistic is as frequent as the one as far from the other end.
* `pmf_mirrored`: the table is a symmetric distribution.
* `pmf_not_mirrored`: a table that is not.
-/

namespace Campaign.RankSum

open Binary64 Finset Polynomial

variable {n₁ n₂ k : ℕ}

theorem count_mirrored (hk : k ≤ n₁ * n₂) : count n₁ n₂ (n₁ * n₂ - k) = count n₁ n₂ k := by
  rw [count, count, ← card_filter_reflect n₁ n₂ (· = k)]
  congr 1
  refine filter_congr fun S hS => ?_
  have := rankStatistic_le hS
  omega

theorem count_zero (m n : ℕ) : count m n 0 = 1 := by
  induction m with
  | zero => rw [count_zero_left, if_pos rfl]
  | succ m ih =>
    have h := congrArg (coeff · 0) (one_sub_mul_box_succ m n)
    simp only [Gaussian.coeff_one_sub_mul, coeff_box, ih] at h
    simpa using h

namespace NullDistribution

/-- The sum of the table is at least what stands at its lower end. -/
theorem one_le_arrangements (h : ∀ k, count n₁ n₂ k ≤ 2 ^ 53) :
    1 ≤ (tabulate n₁ n₂).arrangements := by
  rw [arrangements_eq_sum, Binary64.sum, toList_counts h, List.range_succ_eq_map, List.map_cons,
    List.foldl_cons, count_zero, negZero_add (by norm_num)]
  refine le_foldl_add ((hasValue_zero.le_iff (hasValue_natCast (by norm_num))).2 (by norm_num)) ?_
  intro x hx
  obtain ⟨k, -, rfl⟩ := List.mem_map.1 hx
  exact (hasValue_zero.le_iff (hasValue_natCast (h k))).2 (Nat.cast_nonneg _)

theorem isFinite_arrangements {d : NullDistribution} (hd : tabulate? n₁ n₂ = some d) :
    d.arrangements.isFinite = true := by
  simp only [tabulate?] at hd
  split_ifs at hd with hcells hfin
  rw [Bool.and_eq_true] at hfin
  exact Option.some.inj hd ▸ hfin.1

theorem pmf_of_le (hk : k ≤ n₁ * n₂) (h : ∀ k, count n₁ n₂ k ≤ 2 ^ 53) :
    (tabulate n₁ n₂).pmf k = (count n₁ n₂ k).toFloat / (tabulate n₁ n₂).arrangements := by
  have hsize : k < (tabulate n₁ n₂).maxU + 1 := by rwa [maxU_tabulate, Nat.lt_succ_iff]
  rw [pmf, dif_pos hsize, getElem_counts_of_count_le h]

theorem pmf_eq_place {m b : ℕ} (hm : min n₁ n₂ = m + 1)
    (h : ∀ k, count m (max n₁ n₂) k ≤ 2 ^ 53) (hall : (n₁ + n₂).choose n₁ < b) (hb : 2 ≤ b)
    (hk : k ≤ n₁ * n₂) :
    (tabulate n₁ n₂).pmf k = place b n₁ n₂ k / (tabulate n₁ n₂).arrangements := by
  have hsize : k < (tabulate n₁ n₂).maxU + 1 := by rwa [maxU_tabulate, Nat.lt_succ_iff]
  rw [pmf, dif_pos hsize, getElem_counts_eq_place hm h hall hb]

/-- The signs at the two ends of a table with a positive sum. -/
theorem signs_of_one_div {x : Float} {t : ℝ} (hx : HasValue x t) (h1 : 1 ≤ t) (h : t ≤ 2 ^ 62) :
    Float.ofInt (-1) / x < 0 ∧ 0 < Float.ofInt 1 / x := by
  have hgrid : OnGrid (2 ^ (-62 : ℤ)) := onGrid_zpow (by norm_num)
  have hpower : (0 : ℝ) < 2 ^ (-62 : ℤ) := zpow_pos two_pos _
  have hlow : (2 : ℝ) ^ (-62 : ℤ) ≤ 1 / t := by
    rw [zpow_neg, ← one_div]
    exact one_div_le_one_div_of_le (by linarith) (by exact_mod_cast h)
  have hvalue : ∀ n : ℤ, IsSmall n → HasValue (Float.ofInt n / x) (nearest (n / t)) :=
    fun n hn => (hasValue_ofInt hn).div_of_one_le hx h1
  constructor
  · have hneg : nearest ((-1 : ℤ) / t) ≤ -2 ^ (-62 : ℤ) := by
      refine nearest_le hgrid.neg ?_
      rw [Int.cast_neg, Int.cast_one, neg_div]
      linarith
    rw [(hvalue (-1) (by norm_num [IsSmall])).lt_iff hasValue_zero]
    linarith
  · have hpos : 2 ^ (-62 : ℤ) ≤ nearest ((1 : ℤ) / t) := by
      refine le_nearest hgrid ?_
      rwa [Int.cast_one]
    rw [hasValue_zero.lt_iff (hvalue 1 (by norm_num [IsSmall]))]
    linarith

theorem count_thirty_le : ∀ k, count 30 33 k ≤ 2 ^ 53 :=
  count_le_of_digit_le (b := 2 ^ 64) (by decide +kernel) (by decide) (by decide +kernel)

/-! ### Both ends of the table -/

/-- **The table is a symmetric distribution** if each of its numbers is one that a double holds. -/
theorem pmf_mirrored {d : NullDistribution} (hd : tabulate? n₁ n₂ = some d)
    (h : ∀ k, count n₁ n₂ k ≤ 2 ^ 53) (hk : k ≤ n₁ * n₂) :
    0 ≤ d.pmf k ∧ d.pmf k = d.pmf (n₁ * n₂ - k) := by
  obtain ⟨-, rfl⟩ := of_tabulate?_eq_some hd
  rw [pmf_of_le hk h, pmf_of_le (Nat.sub_le _ k) h, count_mirrored hk]
  refine ⟨?_, rfl⟩
  have hfinite : (tabulate n₁ n₂).arrangements.isFinite = true := isFinite_arrangements hd
  have hall := hasValue_toReal hfinite
  have hone := (hasValue_one.le_iff hall).1 (one_le_arrangements h)
  have hcount := hasValue_natCast (h k)
  have hnonneg : 0 ≤ (count n₁ n₂ k : ℝ) / toReal (tabulate n₁ n₂).arrangements := by positivity
  have hvalue := hcount.div_of_one_le hall hone
  exact (hasValue_zero.le_iff hvalue).2 (nearest_nonneg hnonneg)

theorem pmf_mirrored_thirty : ∃ d, tabulate? 30 33 = some d ∧ (∀ k, count 30 33 k ≤ 2 ^ 53) ∧
    989 ≤ 30 * 33 ∧ 0 ≤ d.pmf 989 ∧ d.pmf 989 = d.pmf (30 * 33 - 989) := by
  have hm : min 30 33 = 29 + 1 := rfl
  have hlast : ∀ k, count 29 (max 30 33) k ≤ 2 ^ 53 := fun k =>
    (count_mono (by decide) k).trans (count_thirty_le k)
  have hd := tabulate?_eq_some_of_last (e := 9) hm hlast (by decide +kernel) (by decide)
    (by decide)
  exact ⟨_, hd, count_thirty_le, by decide, pmf_mirrored hd count_thirty_le (by decide)⟩

/-- **A table that is not symmetric.** The numbers in the middle are beyond `2^53` and rounded. They
cancel towards the ends, and where the lower one holds `1` the upper one holds `-1`. -/
theorem pmf_not_mirrored : ∃ d, tabulate? 31 33 = some d ∧ d.pmf 1022 < 0 ∧
    0 < d.pmf (31 * 33 - 1022) := by
  have hm : min 31 33 = 30 + 1 := rfl
  have hbound : (31 + 33).choose 31 ≤ 2 ^ (9 + 52) := by decide +kernel
  have hd := tabulate?_eq_some_of_last hm count_thirty_le hbound (by decide) (by decide)
  obtain ⟨t, ht, htle⟩ := near_arrangements hm count_thirty_le hbound (by decide) (by decide)
  have hall : (31 + 33).choose 31 = 1777090076065542336 := by decide +kernel
  have hlt : (31 + 33).choose 31 < 2 ^ 64 := hall.trans_lt (by decide)
  have hupper : place (2 ^ 64) 31 33 1022 = Float.ofInt (-1) := by decide +kernel
  have hlower : place (2 ^ 64) 31 33 (31 * 33 - 1022) = Float.ofInt 1 := by decide +kernel
  rw [hall] at htle
  norm_num [abs_le] at htle
  have hsigns := signs_of_one_div ht (by linarith) (by norm_num; linarith)
  refine ⟨_, hd, ?_, ?_⟩
  · rw [pmf_eq_place hm count_thirty_le hlt (by decide) (by decide), hupper]
    exact hsigns.1
  · rw [pmf_eq_place hm count_thirty_le hlt (by decide) (by decide), hlower]
    exact hsigns.2

end NullDistribution

end Campaign.RankSum
