import Mathlib

/-!
# Drawing without replacement

From a population of `n₁ + n₂` members `n₁` are drawn, all choices being equally likely. Mean and
variance of what is drawn follow from two counts: how many choices have a given member, and how many
have one given member and lack another.

* `selections ι n`: the choices of `n` members.

## Main statements

* `expect_sum_selections`: the mean of the sum of what is drawn.
* `expect_sq_selections`: its variance, for a population with the mean zero.
-/

namespace Campaign.RankSum

open Finset
open scoped BigOperators

variable {ι : Type} [Fintype ι] {n₁ n₂ : ℕ}

/-- The choices of `n` members of a population. -/
def selections (ι : Type) [Fintype ι] (n : ℕ) : Finset (Finset ι) := univ.powersetCard n

theorem card_selections (hcard : Fintype.card ι = n₁ + n₂) :
    #(selections ι n₁) = (n₁ + n₂).choose n₁ := by
  rw [selections, card_powersetCard, card_univ, hcard]

/-! ### Choices with given members -/

variable [DecidableEq ι]

theorem card_selections_mem (h1 : 1 ≤ n₁) (i : ι) :
    #{S ∈ selections ι n₁ | i ∈ S} = (Fintype.card ι - 1).choose (n₁ - 1) := by
  have h := card_filter_powersetCard_subset {i} univ n₁ (subset_univ _) h1
  simpa only [selections, singleton_subset_iff, card_singleton, card_univ] using h

/-- Choices that have `i` and lack `j` are choices from all but `j`. -/
theorem card_selections_mem_notMem (h1 : 1 ≤ n₁) {i j : ι} (hij : i ≠ j) :
    #{S ∈ selections ι n₁ | i ∈ S ∧ j ∉ S} = (Fintype.card ι - 2).choose (n₁ - 1) := by
  have hsub : {i} ⊆ univ.erase j := singleton_subset_iff.2 (mem_erase.2 ⟨hij, mem_univ i⟩)
  have hfilter : {S ∈ selections ι n₁ | i ∈ S ∧ j ∉ S} =
      {S ∈ (univ.erase j).powersetCard n₁ | {i} ⊆ S} := by
    ext S
    simp only [selections, mem_filter, mem_powersetCard, singleton_subset_iff, subset_erase,
      subset_univ, true_and]
    tauto
  rw [hfilter, card_filter_powersetCard_subset _ _ _ hsub h1, card_erase_of_mem (mem_univ j),
    card_univ, card_singleton, Nat.sub_sub]

theorem mul_choose_pred (n₂ : ℕ) (h1 : 1 ≤ n₁) :
    (n₁ + n₂) * (n₁ + n₂ - 1).choose (n₁ - 1) = n₁ * (n₁ + n₂).choose n₁ := by
  obtain ⟨k, rfl⟩ := Nat.exists_eq_add_of_le' h1
  have h := Nat.add_one_mul_choose_eq (k + n₂) k
  rw [Nat.add_right_comm k 1 n₂, Nat.add_sub_cancel, Nat.add_sub_cancel, mul_comm (k + 1), h]

theorem mul_choose_pred_pred (h1 : 1 ≤ n₁) (h2 : 1 ≤ n₂) :
    (n₁ + n₂) * (n₁ + n₂ - 1) * (n₁ + n₂ - 2).choose (n₁ - 1) =
      n₁ * n₂ * (n₁ + n₂).choose n₁ := by
  obtain ⟨k, rfl⟩ := Nat.exists_eq_add_of_le' h1
  obtain ⟨l, rfl⟩ := Nat.exists_eq_add_of_le' h2
  have hall := Nat.add_one_mul_choose_eq (k + l + 1) k
  have hrest := Nat.choose_mul_succ_eq (k + l) k
  have hsize : k + 1 + (l + 1) = k + l + 1 + 1 := by omega
  have hpred : k + l + 1 - k = l + 1 := by omega
  have hpred₂ : k + l + 1 + 1 - 2 = k + l := by omega
  rw [hpred] at hrest
  rw [hsize, hpred₂, Nat.add_sub_cancel, Nat.add_sub_cancel]
  calc (k + l + 1 + 1) * (k + l + 1) * (k + l).choose k
    _ = (k + l + 1 + 1) * ((k + l).choose k * (k + l + 1)) := by ring
    _ = (k + l + 1 + 1) * (k + l + 1).choose k * (l + 1) := by rw [hrest]; ring
    _ = (k + 1) * (l + 1) * (k + l + 1 + 1).choose (k + 1) := by rw [hall]; ring

/-! ### Sums over all choices -/

theorem sum_sum_selections (h1 : 1 ≤ n₁) (a : ι → ℝ) :
    ∑ S ∈ selections ι n₁, ∑ i ∈ S, a i = (Fintype.card ι - 1).choose (n₁ - 1) * ∑ i, a i := by
  calc ∑ S ∈ selections ι n₁, ∑ i ∈ S, a i
    _ = ∑ i, ∑ S ∈ selections ι n₁ with i ∈ S, a i := sum_comm' (by simp)
    _ = ∑ i, (Fintype.card ι - 1).choose (n₁ - 1) * a i := by
        refine sum_congr rfl fun i _ => ?_
        rw [sum_const, card_selections_mem h1, nsmul_eq_mul]
    _ = _ := (mul_sum _ _ _).symm

/-- In a population with the sum zero, what is not drawn cancels what is drawn. -/
theorem sq_sum_eq {d : ι → ℝ} (h0 : ∑ i, d i = 0) (S : Finset ι) :
    (∑ i ∈ S, d i) ^ 2 = -∑ i ∈ S, ∑ j ∈ Sᶜ, d i * d j := by
  have hrest : ∑ j ∈ Sᶜ, d j = -∑ i ∈ S, d i := by
    rw [← sum_add_sum_compl S d] at h0
    linear_combination h0
  rw [← sum_mul_sum, hrest]
  ring

theorem sum_sq_selections (h1 : 1 ≤ n₁) {d : ι → ℝ} (h0 : ∑ i, d i = 0) :
    ∑ S ∈ selections ι n₁, (∑ i ∈ S, d i) ^ 2 =
      (Fintype.card ι - 2).choose (n₁ - 1) * ∑ i, d i ^ 2 := by
  have hpairs : ∑ S ∈ selections ι n₁, ∑ i ∈ S, ∑ j ∈ Sᶜ, d i * d j =
      ∑ i, ∑ j ∈ univ.erase i, (Fintype.card ι - 2).choose (n₁ - 1) * (d i * d j) := by
    calc ∑ S ∈ selections ι n₁, ∑ i ∈ S, ∑ j ∈ Sᶜ, d i * d j
      _ = ∑ i, ∑ S ∈ selections ι n₁ with i ∈ S, ∑ j ∈ Sᶜ, d i * d j := sum_comm' (by simp)
      _ = ∑ i, ∑ j ∈ univ.erase i, ∑ S ∈ selections ι n₁ with i ∈ S ∧ j ∉ S, d i * d j := by
          refine sum_congr rfl fun i _ => sum_comm' fun S j => ?_
          simp only [mem_filter, mem_compl, mem_erase, mem_univ, and_true]
          constructor
          · exact fun ⟨⟨hS, hi⟩, hj⟩ => ⟨⟨hS, hi, hj⟩, fun h => hj (h ▸ hi)⟩
          · exact fun ⟨⟨hS, hi, hj⟩, _⟩ => ⟨⟨hS, hi⟩, hj⟩
      _ = _ := by
          refine sum_congr rfl fun i _ => sum_congr rfl fun j hj => ?_
          rw [sum_const, card_selections_mem_notMem h1 (ne_of_mem_erase hj).symm, nsmul_eq_mul]
  have herase : ∀ i, ∑ j ∈ univ.erase i, d i * d j = -d i ^ 2 := fun i => by
    rw [← mul_sum, sum_erase_eq_sub (mem_univ i), h0]
    ring
  rw [sum_congr rfl fun S _ => sq_sum_eq h0 S, sum_neg_distrib, hpairs]
  simp only [← mul_sum, herase, sum_neg_distrib, mul_neg, neg_neg]

/-! ### Mean and variance -/

section

variable (hcard : Fintype.card ι = n₁ + n₂) (h1 : 1 ≤ n₁) (h2 : 1 ≤ n₂)

include hcard h1

/-- **The mean of the sum of what is drawn.** -/
theorem expect_sum_selections (a : ι → ℝ) :
    𝔼 S ∈ selections ι n₁, ∑ i ∈ S, a i = n₁ * (∑ i, a i) / (n₁ + n₂) := by
  have hchoose : (((n₁ + n₂).choose n₁ : ℕ) : ℝ) ≠ 0 := by
    exact_mod_cast (Nat.choose_pos (Nat.le_add_right n₁ n₂)).ne'
  have hsize : (n₁ : ℝ) + n₂ ≠ 0 := by
    exact_mod_cast (show n₁ + n₂ ≠ 0 by omega)
  have hcount : ((n₁ : ℝ) + n₂) * (n₁ + n₂ - 1).choose (n₁ - 1) =
      n₁ * (n₁ + n₂).choose n₁ := by
    exact_mod_cast mul_choose_pred n₂ h1
  rw [expect_eq_sum_div_card, sum_sum_selections h1, card_selections hcard, hcard,
    div_eq_div_iff hchoose hsize]
  linear_combination (∑ i, a i) * hcount

include h2

/-- **The variance of the sum of what is drawn.** -/
theorem expect_sq_selections {d : ι → ℝ} (h0 : ∑ i, d i = 0) :
    𝔼 S ∈ selections ι n₁, (∑ i ∈ S, d i) ^ 2 =
      n₁ * n₂ * (∑ i, d i ^ 2) / ((n₁ + n₂) * (n₁ + n₂ - 1)) := by
  have hchoose : (((n₁ + n₂).choose n₁ : ℕ) : ℝ) ≠ 0 := by
    exact_mod_cast (Nat.choose_pos (Nat.le_add_right n₁ n₂)).ne'
  have hpred : ((n₁ + n₂ - 1 : ℕ) : ℝ) = n₁ + n₂ - 1 := by
    rw [Nat.cast_sub (by omega), Nat.cast_add, Nat.cast_one]
  have hsize : ((n₁ : ℝ) + n₂) * (n₁ + n₂ - 1) ≠ 0 := by
    rw [← hpred]
    exact_mod_cast (Nat.mul_pos (show 0 < n₁ + n₂ by omega) (show 0 < n₁ + n₂ - 1 by omega)).ne'
  have hcount : ((n₁ : ℝ) + n₂) * (n₁ + n₂ - 1) * (n₁ + n₂ - 2).choose (n₁ - 1) =
      n₁ * n₂ * (n₁ + n₂).choose n₁ := by
    rw [← hpred]
    exact_mod_cast mul_choose_pred_pred h1 h2
  rw [expect_eq_sum_div_card, sum_sq_selections h1 h0, card_selections hcard, hcard,
    div_eq_div_iff hchoose hsize]
  linear_combination (∑ i, d i ^ 2) * hcount

end

end Campaign.RankSum
