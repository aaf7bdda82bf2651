import Mathlib.Algebra.BigOperators.Intervals
import Mathlib.Algebra.Polynomial.Coeff
import Mathlib.Algebra.Polynomial.Degree.Domain
import Mathlib.Data.Finset.Powerset
import Mathlib.Tactic.LinearCombination
import Mathlib.Tactic.Ring

/-!
# Arrangements of ranks and the Gaussian binomial

An arrangement gives `m` of the ranks `1, …, m + n` to the first sample. Its statistic is the sum
of these ranks less the least possible one, `m(m+1)/2`.

* `arrangements m n`: the sets of `m` ranks;
* `rankStatistic`: the statistic of a set of ranks;
* `count`, `countAtLeast`: the number of arrangements with the statistic `k`, or at least `k`;
* `box m n`: the generating polynomial of `count m n`.

## Main statements

* `one_sub_mul_box_succ`: `(1 - q^(m+1)) · box (m+1) n = (1 - q^(n+m+1)) · box m n`, which is how
  the product formula of the Gaussian binomial grows by one factor.
* `box_comm`: the two samples may change places.
* `card_filter_reflect`: the distribution is symmetric about the middle of `0, …, m · n`.
-/

namespace Campaign.RankSum

open Finset Polynomial

/-! ### The statistic of an arrangement -/

/-- The sets of `m` of the ranks `1, …, m + n`. -/
def arrangements (m n : ℕ) : Finset (Finset ℕ) := (Icc 1 (m + n)).powersetCard m

/-- The sum of the ranks less the sum of the least ranks that as many values can have. -/
def rankStatistic (S : Finset ℕ) : ℕ := ∑ s ∈ S, s - #S * (#S + 1) / 2

/-- The number of arrangements with the statistic `k`. -/
def count (m n k : ℕ) : ℕ := #{S ∈ arrangements m n | rankStatistic S = k}

/-- The number of arrangements whose statistic is at least `k`. -/
def countAtLeast (m n k : ℕ) : ℕ := #{S ∈ arrangements m n | k ≤ rankStatistic S}

theorem triangle_succ (m : ℕ) : (m + 1) * (m + 1 + 1) / 2 = m * (m + 1) / 2 + (m + 1) := by
  have h : (m + 1) * (m + 1 + 1) = m * (m + 1) + 2 * (m + 1) := by ring
  rw [h, Nat.add_mul_div_left _ _ Nat.two_pos]

theorem mem_arrangements {m n : ℕ} {S : Finset ℕ} :
    S ∈ arrangements m n ↔ S ⊆ Icc 1 (m + n) ∧ #S = m :=
  mem_powersetCard

theorem card_arrangements (m n : ℕ) : #(arrangements m n) = (m + n).choose m := by
  simp [arrangements]

/-- The subtraction in `rankStatistic` never cuts anything off. -/
theorem triangle_le_sum (S : Finset ℕ) (hS : ∀ s ∈ S, 1 ≤ s) : #S * (#S + 1) / 2 ≤ ∑ s ∈ S, s := by
  induction S using Finset.induction_on_max with
  | empty => simp
  | insert a S hmax ih =>
    have ha : a ∉ S := fun h => (hmax a h).false
    have hcard : #S + 1 ≤ a := by
      have hsub : S ⊆ Icc 1 (a - 1) := by
        intro s hs
        have := hmax s hs
        have := hS s (mem_insert_of_mem hs)
        simp only [mem_Icc]; omega
      have := card_le_card hsub
      have := hS a (mem_insert_self a S)
      simp only [Nat.card_Icc] at *; omega
    have := ih fun s hs => hS s (mem_insert_of_mem hs)
    rw [card_insert_of_notMem ha, sum_insert ha, triangle_succ]
    omega

theorem sum_eq_rankStatistic_add {m n : ℕ} {S : Finset ℕ} (hS : S ∈ arrangements m n) :
    ∑ s ∈ S, s = rankStatistic S + m * (m + 1) / 2 := by
  obtain ⟨hsub, hcard⟩ := mem_arrangements.mp hS
  have := triangle_le_sum S fun s hs => (mem_Icc.mp (hsub hs)).1
  rw [rankStatistic, hcard] at *
  omega

/-! ### The generating polynomial -/

/-- The generating polynomial of the statistic over all arrangements. -/
noncomputable def box (m n : ℕ) : ℤ[X] := ∑ S ∈ arrangements m n, X ^ rankStatistic S

theorem coeff_box (m n k : ℕ) : (box m n).coeff k = count m n k := by
  simp only [box, count, finsetSum_coeff, coeff_X_pow, sum_boole, eq_comm]

theorem box_zero (n : ℕ) : box 0 n = 1 := by
  simp [box, arrangements, rankStatistic]

theorem box_zero_right (m : ℕ) : box m 0 = 1 := by
  have harr : arrangements m 0 = {Icc 1 m} := by
    simpa [arrangements] using powersetCard_self (Icc 1 m)
  have hsum : ∑ s ∈ Icc 1 m, s = m * (m + 1) / 2 := by
    induction m with
    | zero => rfl
    | succ m ih =>
      rw [sum_Icc_succ_top (by omega), triangle_succ, ih]
      simpa [arrangements] using powersetCard_self (Icc 1 m)
  simp [box, harr, rankStatistic, hsum]

/-- An arrangement either leaves the greatest rank to the second sample or gives it to the first;
in the second case it beats all `n + 1` values of the other sample. -/
theorem box_succ_succ (m n : ℕ) :
    box (m + 1) (n + 1) = box (m + 1) n + X ^ (n + 1) * box m (n + 1) := by
  have htop : m + n + 2 ∉ Icc 1 (m + 1 + n) := by simp only [mem_Icc]; omega
  have hranks : Icc 1 (m + 1 + (n + 1)) = insert (m + n + 2) (Icc 1 (m + 1 + n)) := by
    ext s; simp only [mem_Icc, mem_insert]; omega
  have hsplit : arrangements (m + 1) (n + 1) =
      arrangements (m + 1) n ∪ (arrangements m (n + 1)).image (insert (m + n + 2)) := by
    rw [arrangements, hranks, powersetCard_succ_insert htop]
    simp only [arrangements, add_right_comm m 1 n, ← add_assoc]
  have hnotMem : ∀ S ∈ arrangements m (n + 1), m + n + 2 ∉ S := by
    intro S hS htop
    have := mem_Icc.mp ((mem_arrangements.mp hS).1 htop)
    omega
  have hdisjoint : Disjoint (arrangements (m + 1) n)
      ((arrangements m (n + 1)).image (insert (m + n + 2))) := by
    refine disjoint_left.mpr fun S hS hS' => ?_
    obtain ⟨T, -, rfl⟩ := mem_image.mp hS'
    exact htop ((mem_arrangements.mp hS).1 (mem_insert_self _ _))
  have hinj : Set.InjOn (insert (m + n + 2)) (arrangements m (n + 1) : Set (Finset ℕ)) := by
    intro S hS T hT h
    rw [← erase_insert (hnotMem S hS), h, erase_insert (hnotMem T hT)]
  have hshift : ∀ S ∈ arrangements m (n + 1),
      rankStatistic (insert (m + n + 2) S) = n + 1 + rankStatistic S := by
    intro S hS
    have hsum := sum_eq_rankStatistic_add hS
    rw [rankStatistic, card_insert_of_notMem (hnotMem S hS), sum_insert (hnotMem S hS),
      (mem_arrangements.mp hS).2, triangle_succ, hsum]
    omega
  rw [box, hsplit, sum_union hdisjoint, sum_image hinj, box, box, mul_sum]
  congr 1
  refine sum_congr rfl fun S hS => ?_
  rw [hshift S hS, pow_add]

/-! ### The product formula -/

/-- The step in the size of the second sample follows from the step in the size of the first. -/
theorem one_sub_mul_box_right_of {n : ℕ}
    (hleft : ∀ m, (1 - X ^ (m + 1)) * box (m + 1) n = (1 - X ^ (n + m + 1)) * box m n) (m : ℕ) :
    (1 - X ^ (n + 1)) * box m (n + 1) = (1 - X ^ (n + m + 1)) * box m n := by
  induction m with
  | zero => simp [box_zero]
  | succ m ih =>
    rw [box_succ_succ]
    linear_combination X ^ (n + 1) * ih - X ^ (n + 1) * hleft m

theorem one_sub_mul_box_succ (m n : ℕ) :
    (1 - X ^ (m + 1)) * box (m + 1) n = (1 - X ^ (n + m + 1)) * box m n := by
  induction n generalizing m with
  | zero => simp [box_zero_right]
  | succ n ih =>
    -- the formula for all `m` at `n` gives the step from `n` to `n + 1` in the other size
    have hright := one_sub_mul_box_right_of ih m
    rw [box_succ_succ]
    linear_combination ih m - hright

theorem one_sub_mul_box_right (m n : ℕ) :
    (1 - X ^ (n + 1)) * box m (n + 1) = (1 - X ^ (n + m + 1)) * box m n :=
  one_sub_mul_box_right_of (fun m => one_sub_mul_box_succ m n) m

theorem one_sub_X_pow_ne_zero (s : ℕ) : (1 - X ^ (s + 1) : ℤ[X]) ≠ 0 := by
  intro h
  have := congrArg (coeff · 0) h
  simp [coeff_X_pow] at this

/-! ### Symmetries -/

theorem box_comm (m n : ℕ) : box m n = box n m := by
  induction n with
  | zero => rw [box_zero, box_zero_right]
  | succ n ih =>
    refine mul_left_cancel₀ (one_sub_X_pow_ne_zero n) ?_
    rw [one_sub_mul_box_right, one_sub_mul_box_succ, ih, add_comm n m]

theorem count_comm (m n k : ℕ) : count m n k = count n m k := by
  have h := coeff_box m n k
  rw [box_comm, coeff_box] at h
  exact_mod_cast h.symm

/-- An arrangement with every rank counted from the other end. -/
def reflect (N : ℕ) (S : Finset ℕ) : Finset ℕ := S.image (N + 1 - ·)

theorem sub_injOn {N : ℕ} {S : Finset ℕ} (hS : S ⊆ Icc 1 N) :
    Set.InjOn (N + 1 - ·) (S : Set ℕ) := by
  intro a ha b hb (h : N + 1 - a = N + 1 - b)
  have := mem_Icc.mp (hS ha)
  have := mem_Icc.mp (hS hb)
  omega

theorem reflect_mem {m n : ℕ} {S : Finset ℕ} (hS : S ∈ arrangements m n) :
    reflect (m + n) S ∈ arrangements m n := by
  obtain ⟨hsub, hcard⟩ := mem_arrangements.mp hS
  refine mem_arrangements.mpr ⟨fun s hs => ?_, ?_⟩
  · obtain ⟨t, ht, rfl⟩ := mem_image.mp hs
    have := mem_Icc.mp (hsub ht)
    simp only [mem_Icc]; omega
  · rw [reflect, card_image_of_injOn (sub_injOn hsub), hcard]

theorem reflect_reflect {m n : ℕ} {S : Finset ℕ} (hS : S ∈ arrangements m n) :
    reflect (m + n) (reflect (m + n) S) = S := by
  have hself : ∀ s ∈ S, m + n + 1 - (m + n + 1 - s) = s := by
    intro s hs
    have := mem_Icc.mp ((mem_arrangements.mp hS).1 hs)
    omega
  simp only [reflect, image_image]
  calc S.image ((m + n + 1 - ·) ∘ (m + n + 1 - ·)) = S.image id := image_congr hself
    _ = S := image_id

theorem rankStatistic_reflect_add {m n : ℕ} {S : Finset ℕ} (hS : S ∈ arrangements m n) :
    rankStatistic (reflect (m + n) S) + rankStatistic S = m * n := by
  obtain ⟨hsub, hcard⟩ := mem_arrangements.mp hS
  have hreflected : ∑ s ∈ reflect (m + n) S, s = ∑ s ∈ S, (m + n + 1 - s) :=
    sum_image (sub_injOn hsub)
  have hboth : ∑ s ∈ S, (m + n + 1 - s) + ∑ s ∈ S, s = m * (m + n + 1) := by
    rw [← sum_add_distrib, ← hcard, ← smul_eq_mul, ← sum_const]
    refine sum_congr rfl fun s hs => ?_
    have := mem_Icc.mp (hsub hs)
    rw [hcard]; omega
  have h₁ := sum_eq_rankStatistic_add hS
  have h₂ := sum_eq_rankStatistic_add (reflect_mem hS)
  have htriangle : m * (m + 1) / 2 * 2 = m * (m + 1) :=
    Nat.div_mul_cancel (Nat.even_mul_succ_self m).two_dvd
  have hexpand : m * (m + n + 1) = m * (m + 1) + m * n := by ring
  omega

theorem rankStatistic_le {m n : ℕ} {S : Finset ℕ} (hS : S ∈ arrangements m n) :
    rankStatistic S ≤ m * n := by
  have := rankStatistic_reflect_add hS
  omega

theorem card_filter_reflect (m n : ℕ) (p : ℕ → Prop) [DecidablePred p] :
    #{S ∈ arrangements m n | p (m * n - rankStatistic S)} =
      #{S ∈ arrangements m n | p (rankStatistic S)} := by
  have hvalue : ∀ S ∈ arrangements m n,
      m * n - rankStatistic S = rankStatistic (reflect (m + n) S) := by
    intro S hS
    have := rankStatistic_reflect_add hS
    omega
  refine card_nbij' (reflect (m + n)) (reflect (m + n)) ?_ ?_ ?_ ?_
  · intro S hS
    obtain ⟨hS, hp⟩ := mem_filter.mp hS
    rw [hvalue S hS] at hp
    exact mem_filter.mpr ⟨reflect_mem hS, hp⟩
  · intro S hS
    obtain ⟨hS, hp⟩ := mem_filter.mp hS
    refine mem_filter.mpr ⟨reflect_mem hS, ?_⟩
    rwa [hvalue _ (reflect_mem hS), reflect_reflect hS]
  · exact fun S hS => reflect_reflect (mem_filter.mp hS).1
  · exact fun S hS => reflect_reflect (mem_filter.mp hS).1

/-! ### Larger samples -/

theorem count_zero_left (n k : ℕ) : count 0 n k = if k = 0 then 1 else 0 := by
  have h := coeff_box 0 n k
  rw [box_zero, coeff_one] at h
  exact_mod_cast h.symm

/-- The recursion over the greatest rank, by numbers of arrangements. -/
theorem count_succ_succ (m n k : ℕ) : count (m + 1) (n + 1) k =
    count (m + 1) n k + if n + 1 ≤ k then count m (n + 1) (k - (n + 1)) else 0 := by
  have h := congrArg (coeff · k) (box_succ_succ m n)
  simp only [coeff_add, coeff_X_pow_mul', coeff_box] at h
  exact_mod_cast h

theorem count_le_count_succ (m n k : ℕ) : count m n k ≤ count m (n + 1) k := by
  cases m with
  | zero => rw [count_zero_left, count_zero_left]
  | succ m =>
    rw [count_succ_succ]
    exact Nat.le_add_right _ _

/-- A statistic is the more frequent the larger the samples are. -/
theorem count_mono {i m n : ℕ} (hi : i ≤ m) (k : ℕ) : count i n k ≤ count m n k := by
  induction m, hi using Nat.le_induction with
  | base => exact le_rfl
  | succ m _ ih =>
    refine ih.trans ?_
    rw [count_comm m, count_comm (m + 1)]
    exact count_le_count_succ n m k

/-! ### Totals and tails -/

theorem count_le (m n k : ℕ) : count m n k ≤ (m + n).choose m := by
  rw [← card_arrangements]
  exact card_filter_le _ _

theorem sum_count (m n a b : ℕ) :
    ∑ k ∈ Ico a b, count m n k = #{S ∈ arrangements m n | rankStatistic S ∈ Ico a b} :=
  sum_card_fiberwise_eq_card_filter _ _ _

theorem sum_count_le (m n a b : ℕ) : ∑ k ∈ Ico a b, count m n k ≤ (m + n).choose m := by
  rw [sum_count, ← card_arrangements]
  exact card_filter_le _ _

/-- The upper tail of the table. -/
theorem sum_count_tail (m n a : ℕ) :
    ∑ k ∈ Ico a (m * n + 1), count m n k = countAtLeast m n a := by
  rw [sum_count, countAtLeast]
  congr 1
  refine filter_congr fun S hS => ?_
  have := rankStatistic_le hS
  simp only [mem_Ico]; omega

/-- The same tail read off the other end of the table. -/
theorem sum_count_head {m n a : ℕ} (ha : a ≤ m * n) :
    ∑ k ∈ Ico 0 (m * n - a + 1), count m n k = countAtLeast m n a := by
  rw [sum_count, countAtLeast, ← card_filter_reflect m n (a ≤ ·)]
  congr 1
  refine filter_congr fun S hS => ?_
  have := rankStatistic_le hS
  simp only [mem_Ico]; omega

theorem countAtLeast_zero (m n : ℕ) : countAtLeast m n 0 = (m + n).choose m := by
  simp [countAtLeast, card_arrangements]

theorem countAtLeast_le (m n a : ℕ) : countAtLeast m n a ≤ (m + n).choose m := by
  rw [← card_arrangements]
  exact card_filter_le _ _

theorem countAtLeast_anti {m n a b : ℕ} (h : a ≤ b) : countAtLeast m n b ≤ countAtLeast m n a :=
  card_le_card fun _ hS =>
    mem_filter.2 ⟨(mem_filter.1 hS).1, h.trans (mem_filter.1 hS).2⟩

theorem countAtLeast_eq_zero {m n a : ℕ} (h : m * n < a) : countAtLeast m n a = 0 := by
  refine card_eq_zero.2 (filter_eq_empty_iff.2 fun S hS hle => ?_)
  have := rankStatistic_le hS
  omega

/-- The lower tail of the table. -/
theorem sum_count_lower (m n a : ℕ) :
    ∑ k ∈ Ico 0 (a + 1), count m n k = #{S ∈ arrangements m n | rankStatistic S ≤ a} := by
  rw [sum_count]
  congr 1
  refine filter_congr fun S _ => ?_
  simp only [mem_Ico]; omega

/-- Values of at least `m · n - k` are as frequent as values of at most `k`. -/
theorem countAtLeast_sub {m n k : ℕ} (hk : k ≤ m * n) :
    countAtLeast m n (m * n - k) = #{S ∈ arrangements m n | rankStatistic S ≤ k} := by
  rw [countAtLeast, ← card_filter_reflect m n (· ≤ k)]
  congr 1
  refine filter_congr fun S hS => ?_
  have := rankStatistic_le hS
  omega

end Campaign.RankSum
