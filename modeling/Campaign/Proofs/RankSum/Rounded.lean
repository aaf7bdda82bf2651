import Campaign.Proofs.Binary64.Near
import Campaign.Proofs.RankSum.Packed
import Campaign.Proofs.RankSum.Table

/-!
# The table beyond exact numbers

Numbers of arrangements beyond `2^53` are rounded. If the table was exact up to the last factor,
every place of it is a running sum of exact numbers, and what it holds is known up to half a unit
for each place below it.

* `runningSum`: the running sum of some doubles;
* `place`: what a place of the table holds.

## Main statements

* `getElem_divOneSub`: what a division does to one place, for any numbers.
* `getElem_divOneSub_eq_runningSum`: a place of the table that a factor divides.
* `getElem_counts_eq_place`: a place of the table, from a part of the others.
* `near_counts`, `near_arrangements`: the numbers of the table and their sum.
* `tabulate?_eq_some_of_last`: there is a table.
-/

namespace Campaign.RankSum

open Binary64 Finset Polynomial

namespace Gaussian

/-- The sum of the doubles `f 0`, …, `f j`, each of which is added from the left. -/
def runningSum (f : ℕ → Float) : ℕ → Float
  | 0 => f 0
  | j + 1 => f (j + 1) + runningSum f j

/-! ### A divided table, place by place -/

section

variable {α : Type} {size : ℕ}

/-- Going up, the places below `s + t` are done, and they read places that were done before. -/
theorem getElem_fold_add [Add α] {s t : ℕ} (hs : 0 < s) (ht : t ≤ size - s) (p : Vector α size)
    {k : ℕ} (hk : k < size) :
    (t.fold (fun d _ row => row.set (s + d) (row[s + d] + row[d])) p)[k] =
      if s ≤ k ∧ k < s + t then
        p[k] + (t.fold (fun d _ row => row.set (s + d) (row[s + d] + row[d])) p)[k - s]
      else p[k] := by
  induction t generalizing k with
  | zero =>
    rw [if_neg (by omega)]
    rfl
  | succ t ih =>
    simp only [Nat.fold_succ, Vector.getElem_set]
    by_cases htop : k = s + t
    · subst htop
      have hold := ih (by omega) hk
      rw [if_neg (by omega)] at hold
      simp only [if_pos, Nat.add_sub_cancel_left, Nat.le_add_right, Nat.lt_succ_self, true_and,
        ← Nat.add_assoc, hold, if_neg (show s + t ≠ t by omega)]
    · rw [if_neg (by omega), ih (by omega) hk]
      split_ifs <;> first | rfl | omega

theorem getElem_divOneSub [Add α] {s : ℕ} (hs : 0 < s) (p : Vector α size) {k : ℕ}
    (hk : k < size) :
    (divOneSub s p)[k] = if s ≤ k then p[k] + (divOneSub s p)[k - s] else p[k] := by
  rw [divOneSub, getElem_fold_add hs le_rfl]
  congr 1
  exact propext (by omega)

end

section

variable {s size : ℕ} {v : Vector Float size} {p q : ℤ[X]}

theorem runningSum_congr {f g : ℕ → Float} {j : ℕ} (h : ∀ i ≤ j, f i = g i) :
    runningSum f j = runningSum g j := by
  induction j with
  | zero => exact h 0 le_rfl
  | succ j ih => rw [runningSum, runningSum, h _ le_rfl, ih fun i hi => h i (Nat.le_succ_of_le hi)]

theorem getElem_divOneSub_add_mul {r j : ℕ} (hr : r < s) (hv : Tabulates v q)
    (hj : r + s * j < size) :
    (divOneSub s v)[r + s * j] = runningSum (fun i => Float.ofInt (q.coeff (r + s * i))) j := by
  have hs : 0 < s := Nat.zero_lt_of_lt hr
  induction j with
  | zero =>
    rw [getElem_divOneSub hs v hj, if_neg (by omega), hv]
    rfl
  | succ j ih =>
    have hbelow : r + s * (j + 1) - s = r + s * j := by
      rw [Nat.mul_succ]
      omega
    have hstep : s ≤ r + s * (j + 1) := by
      rw [Nat.mul_succ]
      omega
    rw [getElem_divOneSub hs v hj, if_pos hstep, hv, runningSum]
    simp only [hbelow]
    rw [ih]

/-- **A place of a divided table** is a running sum over the places below it, `s` by `s`. -/
theorem getElem_divOneSub_eq_runningSum (hs : 0 < s) (hv : Tabulates v q) {k : ℕ}
    (hk : k < size) : (divOneSub s v)[k] =
      runningSum (fun i => Float.ofInt (q.coeff (k % s + s * i))) (k / s) := by
  have hplace := getElem_divOneSub_add_mul (Nat.mod_lt k hs) hv (j := k / s)
    (by rwa [Nat.mod_add_div])
  simpa only [Nat.mod_add_div] using hplace

/-- Each place is off by half a unit at most for each place below it. -/
theorem near_getElem_divOneSub {e : ℕ} (hs : 0 < s) (he : e ≤ 970)
    (hv : Tabulates v ((1 - X ^ s) * p)) (hmul : ∀ k, IsSmall (((1 - X ^ s) * p).coeff k))
    (hp : ∀ k, |(p.coeff k : ℝ)| ≤ 2 ^ (e + 52)) (hsize : size ≤ 2 ^ 53) {k : ℕ} (hk : k < size) :
    Near (divOneSub s v)[k] (p.coeff k) (k * (2 ^ e / 2)) := by
  have hhalf : (0 : ℝ) < 2 ^ e / 2 := by positivity
  -- the place that is read, `s` below, has been divided already
  induction k using Nat.strong_induction_on with
  | _ k ih =>
    have hvk := (hasValue_ofInt (hmul k)).near
    rw [getElem_divOneSub hs v hk, hv k hk]
    rw [coeff_one_sub_mul] at hvk ⊢
    split_ifs with h
    · have hread := ih (k - s) (by omega) (by omega)
      rw [if_pos h] at hvk
      have hexact : ((p.coeff k - p.coeff (k - s) : ℤ) : ℝ) + p.coeff (k - s) = p.coeff k := by
        rw [Int.cast_sub, sub_add_cancel]
      have hbelow : ((k - s : ℕ) : ℝ) + 1 ≤ k := by
        exact_mod_cast (show k - s + 1 ≤ k by omega)
      have hplaces : (k : ℝ) ≤ 2 ^ 53 := by
        exact_mod_cast hk.le.trans hsize
      have hroom : (k : ℝ) * (2 ^ e / 2) ≤ 2 ^ (e + 52) := by
        calc (k : ℝ) * (2 ^ e / 2) ≤ 2 ^ 53 * (2 ^ e / 2) := by gcongr
          _ = 2 ^ (e + 52) := by
            rw [pow_add]
            ring
      have hdistance : ((k - s : ℕ) : ℝ) * (2 ^ e / 2) + 2 ^ e / 2 ≤ k * (2 ^ e / 2) := by
        calc _ = (((k - s : ℕ) : ℝ) + 1) * (2 ^ e / 2) := by ring
          _ ≤ k * (2 ^ e / 2) := by gcongr
      have hsum := hvk.add hread he (by
        rw [hexact, zero_add]
        have hdouble : (2 : ℝ) ^ (e + 53) = 2 ^ (e + 52) + 2 ^ (e + 52) := by
          rw [← mul_two, ← pow_succ]
        have := hp k
        linarith)
      rw [hexact, zero_add] at hsum
      exact hsum.mono hdistance
    · rw [if_neg h] at hvk
      exact hvk.mono (by positivity)

/-- The last factor, if the table was exact before it. -/
theorem exists_coefficients_eq_divOneSub {m m' n : ℕ} (hm : m' = m + 1)
    (h : ∀ k, count m n k ≤ 2 ^ 53) :
    ∃ v : Vector Float (m' * n + 1), coefficients Float m' n = divOneSub m' v ∧
      Tabulates v ((1 - X ^ m') * box m' n) ∧
      ∀ k, IsSmall (((1 - X ^ m') * box m' n).coeff k) := by
  subst hm
  refine ⟨_, rfl, tabulates_mulOneSub (m + 1) h, fun k => ?_⟩
  rw [one_sub_mul_box_succ]
  exact abs_coeff_one_sub_mul_box_le (fun k => by exact_mod_cast h k) _ k

end

end Gaussian

/-! ### The last factor -/

namespace NullDistribution

open Gaussian

section

variable {n₁ n₂ m e : ℕ}

theorem box_min (n₁ n₂ : ℕ) : box (min n₁ n₂) (max n₁ n₂) = box n₁ n₂ := by
  rcases le_total n₁ n₂ with h | h
  · rw [min_eq_left h, max_eq_right h]
  · rw [min_eq_right h, max_eq_left h, box_comm]

theorem exists_counts_eq_divOneSub (hm : min n₁ n₂ = m + 1)
    (h : ∀ k, count m (max n₁ n₂) k ≤ 2 ^ 53) :
    ∃ v : Vector Float ((tabulate n₁ n₂).maxU + 1),
      (tabulate n₁ n₂).counts = divOneSub (min n₁ n₂) v ∧
      Tabulates v ((1 - X ^ min n₁ n₂) * box n₁ n₂) ∧
      ∀ k, IsSmall (((1 - X ^ min n₁ n₂) * box n₁ n₂).coeff k) := by
  obtain ⟨v, hv⟩ := exists_coefficients_eq_divOneSub hm h
  rw [box_min] at hv
  exact ⟨v, (counts_tabulate n₁ n₂).trans hv.1, hv.2⟩

/-- What the last factor divides at one place, by digits in base `b`. -/
def dividend (b n₁ n₂ k : ℕ) : ℤ :=
  if min n₁ n₂ ≤ k then digit b n₁ n₂ k - digit b n₁ n₂ (k - min n₁ n₂) else digit b n₁ n₂ k

/-- What a place of the table holds, by digits in base `b`: a running sum that takes every
`min n₁ n₂`-th place. -/
def place (b n₁ n₂ k : ℕ) : Float :=
  runningSum (fun i => Float.ofInt (dividend b n₁ n₂ (k % min n₁ n₂ + min n₁ n₂ * i)))
    (k / min n₁ n₂)

theorem coeff_eq_dividend {b k : ℕ} (hall : (n₁ + n₂).choose n₁ < b) (hb : 2 ≤ b)
    (hk : k ≤ n₁ * n₂) :
    ((1 - X ^ min n₁ n₂) * box n₁ n₂).coeff k = dividend b n₁ n₂ k := by
  rw [coeff_one_sub_mul, coeff_box, coeff_box, count_eq_digit hall hb hk,
    count_eq_digit hall hb ((Nat.sub_le k _).trans hk)]
  rfl

/-- **A place of the table** after the last factor. -/
theorem getElem_counts_eq_place (hm : min n₁ n₂ = m + 1)
    (h : ∀ k, count m (max n₁ n₂) k ≤ 2 ^ 53) {b : ℕ} (hall : (n₁ + n₂).choose n₁ < b)
    (hb : 2 ≤ b) {k : ℕ} (hk : k < (tabulate n₁ n₂).maxU + 1) :
    (tabulate n₁ n₂).counts[k] = place b n₁ n₂ k := by
  obtain ⟨v, hcounts, hv, -⟩ := exists_counts_eq_divOneSub hm h
  simp only [hcounts]
  rw [getElem_divOneSub_eq_runningSum (by omega) hv hk]
  refine runningSum_congr fun i hi => ?_
  have hbelow : k % min n₁ n₂ + min n₁ n₂ * i ≤ k := by
    calc _ ≤ k % min n₁ n₂ + min n₁ n₂ * (k / min n₁ n₂) := by gcongr
      _ = k := Nat.mod_add_div _ _
  rw [maxU_tabulate] at hk
  rw [coeff_eq_dividend hall hb (hbelow.trans (Nat.lt_succ_iff.1 hk))]

theorem cells_le (hcells : n₁ * n₂ ≤ maxCells) : ((n₁ * n₂ : ℕ) + 1 : ℝ) ≤ 2 ^ 26 := by
  exact_mod_cast Nat.succ_le_succ hcells |>.trans (by decide)

/-- **The numbers of the table** are off by half a unit at most for each place below. -/
theorem near_counts (hm : min n₁ n₂ = m + 1) (h : ∀ k, count m (max n₁ n₂) k ≤ 2 ^ 53)
    (hall : (n₁ + n₂).choose n₁ ≤ 2 ^ (e + 52)) (he : e ≤ 970) (hcells : n₁ * n₂ ≤ maxCells)
    {k : ℕ} (hk : k < (tabulate n₁ n₂).maxU + 1) :
    Near (tabulate n₁ n₂).counts[k] (count n₁ n₂ k) (k * (2 ^ e / 2)) := by
  obtain ⟨v, hcounts, hv, hsmall⟩ := exists_counts_eq_divOneSub hm h
  have hbound : ∀ k, |((box n₁ n₂).coeff k : ℝ)| ≤ 2 ^ (e + 52) := fun k => by
    rw [coeff_box, Int.cast_natCast, Nat.abs_cast]
    exact_mod_cast (count_le n₁ n₂ k).trans hall
  have hsize : (tabulate n₁ n₂).maxU + 1 ≤ 2 ^ 53 := by
    rw [maxU_tabulate]
    exact (Nat.succ_le_succ hcells).trans (by decide)
  have hnear := near_getElem_divOneSub (by omega) he hv hsmall hbound hsize hk
  rw [coeff_box, Int.cast_natCast] at hnear
  simp only [hcounts]
  exact hnear

theorem toList_counts_eq_map (n₁ n₂ : ℕ) : (tabulate n₁ n₂).counts.toList =
    (List.range (n₁ * n₂ + 1)).map fun k => (tabulate n₁ n₂).counts.toList.getD k 0 := by
  refine List.ext_getElem ?_ fun k hk _ => ?_
  · rw [Vector.length_toList, List.length_map, List.length_range, maxU_tabulate]
  · rw [List.getElem_map, List.getElem_range, List.getD_eq_getElem _ _ hk]

theorem sum_count_range (n₁ n₂ : ℕ) :
    ((List.range (n₁ * n₂ + 1)).map fun k => (count n₁ n₂ k : ℝ)).sum =
      ((n₁ + n₂).choose n₁ : ℕ) := by
  have hlist : ((List.range (n₁ * n₂ + 1)).map fun k => (count n₁ n₂ k : ℝ)).sum =
      ∑ k ∈ range (n₁ * n₂ + 1), (count n₁ n₂ k : ℝ) := rfl
  rw [hlist, ← countAtLeast_zero, ← sum_count_tail, range_eq_Ico, Nat.cast_sum]

/-- **The sum of the table.** -/
theorem near_arrangements (hm : min n₁ n₂ = m + 1) (h : ∀ k, count m (max n₁ n₂) k ≤ 2 ^ 53)
    (hall : (n₁ + n₂).choose n₁ ≤ 2 ^ (e + 52)) (he : e ≤ 970) (hcells : n₁ * n₂ ≤ maxCells) :
    Near (tabulate n₁ n₂).arrangements ((n₁ + n₂).choose n₁ : ℕ)
      (((n₁ * n₂ : ℕ) + 1) ^ 2 * (2 ^ e / 2)) := by
  have hhalf : (0 : ℝ) < 2 ^ e / 2 := by positivity
  have hnear : ∀ k ∈ List.range (n₁ * n₂ + 1), Near ((tabulate n₁ n₂).counts.toList.getD k 0)
      (count n₁ n₂ k) ((n₁ * n₂ : ℕ) * (2 ^ e / 2)) := by
    intro k hk
    have hle : k ≤ n₁ * n₂ := Nat.lt_succ_iff.1 (List.mem_range.1 hk)
    have hsize : k < (tabulate n₁ n₂).maxU + 1 := by rwa [maxU_tabulate, Nat.lt_succ_iff]
    rw [List.getD_eq_getElem _ _ (by rwa [Vector.length_toList]), Vector.getElem_toList]
    refine (near_counts hm h hall he hcells hsize).mono ?_
    gcongr
  have hdistance : ((n₁ * n₂ : ℕ) + 1 : ℝ) * ((n₁ * n₂ : ℕ) * (2 ^ e / 2) + 2 ^ e / 2) =
      ((n₁ * n₂ : ℕ) + 1) ^ 2 * (2 ^ e / 2) := by ring
  have hroom : ((n₁ + n₂).choose n₁ : ℕ) + ((n₁ * n₂ : ℕ) + 1 : ℝ) ^ 2 * (2 ^ e / 2) ≤
      2 ^ (e + 53) := by
    have hchoose : (((n₁ + n₂).choose n₁ : ℕ) : ℝ) ≤ 2 ^ (e + 52) := by exact_mod_cast hall
    have hsquare : ((n₁ * n₂ : ℕ) + 1 : ℝ) ^ 2 ≤ 2 ^ 52 :=
      (pow_le_pow_left₀ (Nat.cast_add_one_pos _).le (cells_le hcells) 2).trans (by norm_num)
    have hdistances := mul_le_mul_of_nonneg_right hsquare hhalf.le
    rw [pow_add] at hchoose ⊢
    linarith
  have hε : (0 : ℝ) ≤ (n₁ * n₂ : ℕ) * (2 ^ e / 2) :=
    mul_nonneg (Nat.cast_nonneg _) hhalf.le
  have hfold := Near.foldl_add _ he hε hasValue_negZero.near hnear (by
    simp only [Nat.abs_cast, sum_count_range, List.length_range, abs_zero, Nat.cast_succ,
      hdistance, zero_add]
    exact hroom)
  rw [arrangements_eq_sum, Binary64.sum, toList_counts_eq_map]
  simpa only [sum_count_range, List.length_range, zero_add, Nat.cast_succ, hdistance] using hfold

/-- **There is a table** although its last numbers are rounded. -/
theorem tabulate?_eq_some_of_last (hm : min n₁ n₂ = m + 1)
    (h : ∀ k, count m (max n₁ n₂) k ≤ 2 ^ 53) (hall : (n₁ + n₂).choose n₁ ≤ 2 ^ (e + 52))
    (he : e ≤ 970) (hcells : n₁ * n₂ ≤ maxCells) :
    tabulate? n₁ n₂ = some (tabulate n₁ n₂) := by
  obtain ⟨t, ht, -⟩ := near_arrangements hm h hall he hcells
  refine tabulate?_of_isFinite hcells ht.isFinite fun k hk => ?_
  obtain ⟨c, hc, -⟩ := near_counts hm h hall he hcells hk
  exact hc.isFinite

end

end NullDistribution

end Campaign.RankSum
