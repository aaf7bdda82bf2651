import Campaign.Proofs.Binary64.Sums
import Campaign.Proofs.RankSum.Midranks
import Campaign.RankSum.Test

/-!
# The statistic as a number of pairs

Every midrank is a half-integer, and so is every sum of midranks. As long as the pooled sample has
size `N` with `N(N+1) ≤ 2^53`, none of them is rounded, and the statistic of a sample is the number
of pairs that it wins, a draw counting one half.

## Main statements

* `hasValue_rankSum`: the rank sum of the first sample.
* `hasValue_statistics`: the statistics of both samples.
-/

namespace Campaign.RankSum

open Binary64

/-! ### Rank sums -/

theorem hasValue_midrank {start size : ℕ} (hsize : 1 ≤ size) (h : 2 * start + size + 1 ≤ 2 ^ 53) :
    HasValue (midrank start size) ((2 * start + size + 1 : ℕ) / 2) := by
  have hmean := hasValue_toFloat_div_two (n := start + (start + size - 1)) (by omega)
  have hone : HasValue 1 ((2 : ℤ) / 2) := by
    rw [Int.cast_ofNat, div_self two_ne_zero]
    exact hasValue_one
  have hsum : ((start + (start + size - 1) : ℕ) : ℤ) + 2 = (2 * start + size + 1 : ℕ) := by omega
  rw [← Int.cast_natCast] at hmean
  have := hmean.add_halves hone (by rw [hsum]; exact isSmall_natCast.2 h)
  rwa [hsum, Int.cast_natCast] at this

/-- Twice the midrank of a value. -/
def twiceRank (l : List Float) (v : Float) : ℕ := 2 * lower l v + equal l v + 1

theorem sum_twiceRank {x y : List Float} (hx : AllFinite x) :
    (x.map (twiceRank (x ++ y))).sum =
      x.length * (x.length + 1) + (2 * wins x y + draws x y) := by
  have hsplit : ∀ l : List Float, (l.map (twiceRank (x ++ y))).sum =
      2 * (l.map (lower x)).sum + (l.map (equal x)).sum + l.length +
        (2 * (l.map (lower y)).sum + (l.map (equal y)).sum) := by
    intro l
    induction l with
    | nil => rfl
    | cons v l ih =>
      simp only [List.map_cons, List.sum_cons, List.length_cons, ih]
      rw [twiceRank, lower_append, equal_append]
      omega
  have hself := two_mul_wins_self hx
  rw [hsplit, ← wins_eq_sum, ← wins_eq_sum, ← draws_eq_sum, ← draws_eq_sum, hself,
    Nat.mul_succ]

section

variable {x y : List Float}

/-- What the size of the pooled sample bounds. -/
theorem sizes_le {N : ℕ} (hN : (x ++ y).length * ((x ++ y).length + 1) ≤ N) :
    x.length * (x.length + 1) + 2 * (x.length * y.length) ≤ N ∧ x.length ≤ N ∧ y.length ≤ N := by
  rw [List.length_append] at hN
  refine ⟨?_, ?_, ?_⟩ <;> nlinarith

/-- **The rank sum.** -/
theorem hasValue_rankSum (hfin : AllFinite (x ++ y))
    (hN : (x ++ y).length * ((x ++ y).length + 1) ≤ 2 ^ 53) :
    ∃ r, (PooledRanks.of x y).rankSum? x.length = some r ∧
      HasValue r ((x.length * (x.length + 1) + (2 * wins x y + draws x y) : ℕ) / 2) := by
  obtain ⟨hx, hy⟩ := hfin.append
  have hpairs := wins_add_draws_add_wins hx hy
  have hsizes := (sizes_le hN).1
  have htake : (PooledRanks.of x y).ranks.take x.length =
      x.map fun v => midrank (lower (x ++ y) v) (equal (x ++ y) v) := by
    rw [PooledRanks.ranks_of hfin.numbers, ← List.map_take, List.take_left]
  have hsum := sum_twiceRank (y := y) hx
  refine ⟨sum ((PooledRanks.of x y).ranks.take x.length), if_pos ?_, ?_⟩
  · rw [PooledRanks.length_ranks hfin.numbers, List.length_append]
    exact Nat.le_add_right _ _
  · rw [htake, ← hsum]
    refine hasValue_sum_halves x (fun v hv => ?_) (by rw [hsum]; omega)
    have hle : twiceRank (x ++ y) v ≤ (x.map (twiceRank (x ++ y))).sum :=
      List.single_le_sum (fun _ _ => Nat.zero_le _) _ (List.mem_map_of_mem hv)
    refine hasValue_midrank (one_le_equal hfin.numbers (List.mem_append_left y hv)) ?_
    rw [hsum, twiceRank] at hle
    omega

theorem pairStatistic_eq_half (x y : List Float) :
    (pairStatistic x y : ℝ) = ((2 * wins x y + draws x y : ℕ) : ℤ) / 2 := by
  rw [Int.cast_natCast, ← Rat.cast_natCast, ← two_mul_pairStatistic]
  push_cast
  ring

/-- **Both statistics are exact.** -/
theorem hasValue_statistics (hfin : AllFinite (x ++ y))
    (hN : (x ++ y).length * ((x ++ y).length + 1) ≤ 2 ^ 53) :
    ∃ r, (PooledRanks.of x y).rankSum? x.length = some r ∧
      HasValue (r - (x.length * (x.length + 1)).toFloat / 2) (pairStatistic x y) ∧
      HasValue (x.length.toFloat * y.length.toFloat -
          (r - (x.length * (x.length + 1)).toFloat / 2))
        ((x.length * y.length : ℕ) - pairStatistic x y : ℚ) := by
  obtain ⟨hx, hy⟩ := hfin.append
  obtain ⟨hsizes, hx', hy'⟩ := sizes_le hN
  have hpairs := wins_add_draws_add_wins hx hy
  obtain ⟨r, hr, hvalue⟩ := hasValue_rankSum hfin hN
  have hleast := hasValue_toFloat_div_two (n := x.length * (x.length + 1)) (by omega)
  have hfirst : HasValue (r - (x.length * (x.length + 1)).toFloat / 2) (pairStatistic x y) := by
    rw [← Int.cast_natCast] at hvalue hleast
    have hdiff : ((x.length * (x.length + 1) + (2 * wins x y + draws x y) : ℕ) : ℤ) -
        (x.length * (x.length + 1) : ℕ) = (2 * wins x y + draws x y : ℕ) := by omega
    have := hvalue.sub_halves hleast (by rw [hdiff]; exact isSmall_natCast.2 (by omega))
    rwa [hdiff, ← pairStatistic_eq_half] at this
  refine ⟨r, hr, hfirst, ?_⟩
  have hcells : ((x.length * y.length : ℕ) : ℝ) = ((2 * (x.length * y.length) : ℕ) : ℤ) / 2 := by
    push_cast
    ring
  have hproduct := hasValue_natCast_mul (hasValue_natCast hx') (hasValue_natCast hy') (by omega)
  have hdiff : ((2 * (x.length * y.length) : ℕ) : ℤ) - (2 * wins x y + draws x y : ℕ) =
      (2 * wins y x + draws x y : ℕ) := by omega
  rw [Rat.cast_sub, Rat.cast_natCast, hcells, pairStatistic_eq_half, ← sub_div, ← Int.cast_sub]
  rw [hcells] at hproduct
  rw [pairStatistic_eq_half] at hfirst
  exact hproduct.sub_halves hfirst (by rw [hdiff]; exact isSmall_natCast.2 (by omega))

end

end Campaign.RankSum
