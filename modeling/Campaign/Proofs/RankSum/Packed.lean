import Campaign.Proofs.RankSum.Arrangements
import Mathlib.Algebra.Polynomial.Eval.Degree
import Mathlib.Tactic.Zify

/-!
# Numbers of arrangements as digits

The value of a Gaussian binomial at a number `b` is the number whose digits in base `b` are the
numbers of arrangements, if `b` is greater than all of them. By the product formula the value takes
few operations, so that numbers of arrangements are read off where counting them would not end.

* `gaussianAt`: the value of a Gaussian binomial;
* `digit`: one of its digits.

## Main statements

* `gaussianAt_eq`: the value by numbers of arrangements.
* `count_eq_digit`: a number of arrangements is a digit of the value.
* `count_le_of_digit_le`: a bound for all numbers of arrangements.
-/

namespace Campaign.RankSum

open Finset Polynomial

/-- The Gaussian binomial of `m + n` over `m` at `b`. -/
def gaussianAt (b n : ℕ) : ℕ → ℕ
  | 0 => 1
  | m + 1 => (b ^ (n + m + 1) - 1) * gaussianAt b n m / (b ^ (m + 1) - 1)

/-- A digit of the value at `b` in base `b`. -/
def digit (b m n k : ℕ) : ℕ := gaussianAt b n m / b ^ k % b

theorem count_eq_zero {m n k : ℕ} (hk : m * n < k) : count m n k = 0 := by
  refine card_eq_zero.2 (filter_eq_empty_iff.2 fun S hS heq => ?_)
  have := rankStatistic_le hS
  omega

theorem eval_box (m n : ℕ) (b : ℤ) :
    (box m n).eval b = ∑ k ∈ range (m * n + 1), (count m n k : ℤ) * b ^ k := by
  have hdegree : (box m n).natDegree < m * n + 1 := by
    rw [Nat.lt_succ_iff, natDegree_le_iff_degree_le, degree_le_iff_coeff_zero]
    intro k hk
    rw [coeff_box, count_eq_zero (by exact_mod_cast hk), Nat.cast_zero]
  rw [eval_eq_sum_range' hdegree]
  exact sum_congr rfl fun k _ => by rw [coeff_box]

section

variable {b m n k : ℕ}

/-- **The value of a Gaussian binomial** by numbers of arrangements. -/
theorem gaussianAt_eq (hb : 2 ≤ b) (m n : ℕ) :
    gaussianAt b n m = ∑ k ∈ range (m * n + 1), count m n k * b ^ k := by
  induction m with
  | zero =>
    have h := eval_box 0 n 1
    rw [box_zero, eval_one] at h
    simp only [Nat.zero_mul, Nat.zero_add, sum_range_one, pow_zero, mul_one] at h ⊢
    exact_mod_cast h
  | succ m ih =>
    -- the product formula without differences below zero
    have hone : ∀ s, 1 ≤ b ^ s := fun s => Nat.one_le_pow _ _ (by omega)
    have hformula := congrArg (eval (b : ℤ)) (one_sub_mul_box_succ m n)
    simp only [eval_mul, eval_sub, eval_one, eval_pow, eval_X, eval_box] at hformula
    have hproduct : (b ^ (m + 1) - 1) * ∑ k ∈ range ((m + 1) * n + 1), count (m + 1) n k * b ^ k =
        (b ^ (n + m + 1) - 1) * gaussianAt b n m := by
      rw [ih]
      zify [hone]
      linarith
    have hpos : 0 < b ^ (m + 1) - 1 := by
      have : 2 ^ 1 ≤ b ^ (m + 1) := (Nat.pow_le_pow_left hb 1).trans
        (Nat.pow_le_pow_right (by omega) (by omega))
      omega
    rw [gaussianAt, ← hproduct, Nat.mul_div_cancel_left _ hpos]

/-- The lowest digit, and the number of which the others are the digits. -/
theorem sum_mul_pow_succ (c : ℕ → ℕ) (size : ℕ) :
    ∑ j ∈ range (size + 1), c j * b ^ j = c 0 + b * ∑ j ∈ range size, c (j + 1) * b ^ j := by
  rw [sum_range_succ', pow_zero, mul_one, add_comm, mul_sum]
  congr 1
  exact sum_congr rfl fun j _ => by ring

theorem sum_mul_pow_digit (hb : 0 < b) {c : ℕ → ℕ} (hc : ∀ j, c j < b) {size : ℕ}
    (hk : k < size) : (∑ j ∈ range size, c j * b ^ j) / b ^ k % b = c k := by
  induction k generalizing c size with
  | zero =>
    obtain ⟨size, rfl⟩ := Nat.exists_eq_add_one.2 hk
    rw [sum_mul_pow_succ, pow_zero, Nat.div_one, Nat.add_mul_mod_self_left,
      Nat.mod_eq_of_lt (hc 0)]
  | succ k ih =>
    obtain ⟨size, rfl⟩ := Nat.exists_eq_add_one.2 (Nat.zero_lt_of_lt hk)
    rw [sum_mul_pow_succ, pow_succ', ← Nat.div_div_eq_div_mul, Nat.add_mul_div_left _ _ hb,
      Nat.div_eq_of_lt (hc 0), Nat.zero_add]
    exact ih (fun j => hc (j + 1)) (Nat.lt_of_succ_lt_succ hk)

/-- **A number of arrangements** is a digit of the value. -/
theorem count_eq_digit (h : (m + n).choose m < b) (hb : 2 ≤ b) (hk : k ≤ m * n) :
    count m n k = digit b m n k := by
  rw [digit, gaussianAt_eq hb, sum_mul_pow_digit (by omega) (fun j => (count_le m n j).trans_lt h)
    (Nat.lt_succ_of_le hk)]

/-- Numbers of arrangements are bounded by looking at all digits. -/
theorem count_le_of_digit_le {c : ℕ} (h : (m + n).choose m < b) (hb : 2 ≤ b)
    (hc : ∀ k ∈ List.range (m * n + 1), digit b m n k ≤ c) (k : ℕ) : count m n k ≤ c := by
  obtain hk | hk := le_or_gt k (m * n)
  · rw [count_eq_digit h hb hk]
    exact hc k (List.mem_range.2 (Nat.lt_succ_of_le hk))
  · rw [count_eq_zero hk]
    exact Nat.zero_le c

end

end Campaign.RankSum
