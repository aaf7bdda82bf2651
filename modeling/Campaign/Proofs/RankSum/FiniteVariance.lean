import Campaign.Proofs.Binary64.Sides
import Campaign.Proofs.RankSum.Classes
import Campaign.Proofs.RankSum.Score

/-!
# Samples with a finite variance

The normal approximation is refused if the variance is not a positive number. Where it is one, all
else that the approximation needs is a number as well, whatever the sizes of the samples: the cube
of each tie group is finite, so no group has `2^342` values; the classes of equal values are told
apart by their bits, so there are at most `2^64` of them; and so the pooled sample is small against
the greatest double.

The score of a statistic is then monotone in every step, and the correction for continuity, which
takes half a unit off the distance from the mean, never raises it.

* `firstStatistic`, `secondStatistic`: the statistics as the test computes them.

## Main statements

* `length_le_of_isFinite_tieTerm`: the pooled sample is bounded;
* `isNaN_statistics`: the statistics are numbers;
* `score_continuity_le`: the correction for continuity does not raise the score.
-/

namespace Campaign.RankSum

open Binary64

/-- The statistic of the first sample: its rank sum, less the least that is possible. -/
def firstStatistic (x y : List Float) : Float :=
  sum ((PooledRanks.of x y).ranks.take x.length) - (x.length * (x.length + 1)).toFloat / 2

/-- The statistic of the second sample: what the first leaves of all pairs. -/
def secondStatistic (x y : List Float) : Float :=
  x.length.toFloat * y.length.toFloat - firstStatistic x y

/-! ### The size of the pooled sample -/

/-- Doubles that increase have different bits. -/
theorem length_le_of_increasing {reps : List Float} (h : reps.Pairwise (· < ·)) :
    reps.length ≤ 2 ^ 64 := by
  have hnodup : reps.Nodup := h.imp fun {a b} hlt heq => by
    subst heq
    have hnumber := isNaN_of_le (isLE_of_lt hlt)
    exact lt_irrefl _ ((lt_iff_toEReal hnumber hnumber).1 hlt)
  have hbits : (reps.map fun w => w.toBits.toNat).Nodup :=
    hnodup.map fun a b hab => Float.toBits_inj.1 (UInt64.toNat.inj hab)
  have hsub : (reps.map fun w => w.toBits.toNat).toFinset ⊆ Finset.range (2 ^ 64) := by
    intro k hk
    obtain ⟨w, -, rfl⟩ := List.mem_map.1 (List.mem_toFinset.1 hk)
    exact Finset.mem_range.2 w.toBits.toNat_lt
  have hcard := Finset.card_le_card hsub
  rwa [List.toFinset_card_of_nodup hbits, List.length_map, Finset.card_range] at hcard

/-- The cube of a group size is finite only for sizes that are small against the greatest double. -/
theorem lt_of_isFinite_cube {t : ℕ}
    (h : (t.toFloat * t.toFloat * t.toFloat).isFinite = true) : t < 2 ^ 342 := by
  by_contra hge
  obtain ⟨hsquare, hfin⟩ := isFinite_of_mul h
  have hvalue := hasValue_natCast_of_isFinite hfin
  have hsquared := hvalue.mul_of_isFinite hvalue hsquare
  have hcubed := (hsquared.mul_of_isFinite hvalue h).abs_lt
  have hlow : (2 : ℝ) ^ 342 ≤ nearest t :=
    le_nearest (onGrid_pow 342) (by exact_mod_cast not_lt.1 hge)
  have hlow2 : (2 : ℝ) ^ 684 ≤ nearest (nearest t * nearest t) := by
    refine le_nearest (onGrid_pow 684) ?_
    rw [show 684 = 342 + 342 from rfl, pow_add]
    exact mul_le_mul hlow hlow (by positivity) (le_trans (by positivity) hlow)
  have hlow3 : (2 : ℝ) ^ 1026 ≤ nearest (nearest (nearest t * nearest t) * nearest t) := by
    refine le_nearest (onGrid_pow 1026) ?_
    rw [show 1026 = 684 + 342 from rfl, pow_add]
    exact mul_le_mul hlow2 hlow (by positivity) (le_trans (by positivity) hlow2)
  have hbig : (2 : ℝ) ^ 1024 ≤ 2 ^ 1026 := pow_le_pow_right₀ one_le_two (by norm_num)
  exact absurd hcubed (not_lt.2 (hbig.trans (hlow3.trans (le_abs_self _))))

section

variable {x y : List Float}

/-- The classes of equal values are told apart by their bits. -/
theorem length_le_of_tieGroups (hnumbers : AllNumbers (x ++ y)) {b : ℕ} (hb : 0 < b)
    (hgroup : ∀ t ∈ (PooledRanks.of x y).tieGroups, t ≤ b) : (x ++ y).length ≤ 2 ^ 64 * b := by
  set runs := tieRuns (PooledRanks.sortPlaced (x ++ y)) with hruns
  have hrun : ∀ t ∈ runs.map List.length, t ≤ b := by
    intro t ht
    obtain ⟨run, hmem, rfl⟩ := List.mem_map.1 ht
    rcases Nat.lt_or_ge 1 run.length with hmany | hone
    · exact hgroup _ (PooledRanks.mem_tieGroups.2 ⟨hmany, run, hmem, rfl⟩)
    · omega
  have hcount : runs.length ≤ 2 ^ 64 := by
    obtain ⟨reps, hreps, hsizes⟩ := exists_represents (PooledRanks.allNumbers_sortPlaced hnumbers)
      (PooledRanks.ascending_sortPlaced hnumbers)
    have hlength : runs.length = reps.length := by simpa using congrArg List.length hsizes
    exact hlength ▸ length_le_of_increasing hreps.increasing
  calc (x ++ y).length
    _ = (runs.map List.length).sum := by
        rw [← List.length_flatten, hruns, tieRuns_flatten, PooledRanks.length_sortPlaced]
    _ ≤ (runs.map List.length).length • b := List.sum_le_card_nsmul _ _ hrun
    _ ≤ 2 ^ 64 * b := by
        rw [List.length_map, smul_eq_mul]
        exact Nat.mul_le_mul_right _ hcount

/-- **A finite tie term bounds the sample**: there are at most `2^64` classes of equal values, and
each has less than `2^342` of them. -/
theorem length_le_of_isFinite_tieTerm (hnumbers : AllNumbers (x ++ y))
    (h : (PooledRanks.of x y).tieTerm.isFinite = true) : (x ++ y).length ≤ 2 ^ (64 + 342) := by
  have hgroup : ∀ t ∈ (PooledRanks.of x y).tieGroups, t ≤ 2 ^ 342 := fun t ht =>
    (lt_of_isFinite_cube (isFinite_of_sub (isFinite_of_mem_sum h _ (List.mem_map_of_mem ht))).1).le
  exact (length_le_of_tieGroups hnumbers (by positivity) hgroup).trans_eq (pow_add 2 64 342).symm

theorem mul_succ_le_pow {n k : ℕ} (h : n ≤ 2 ^ k) : n * (n + 1) ≤ 2 ^ (2 * k + 1) := by
  have hone : 1 ≤ 2 ^ k := Nat.one_le_two_pow
  calc n * (n + 1) ≤ 2 ^ k * (2 ^ k + 1) := Nat.mul_le_mul h (Nat.succ_le_succ h)
    _ ≤ 2 ^ k * (2 ^ k * 2) := Nat.mul_le_mul_left _ (by omega)
    _ = 2 ^ (2 * k + 1) := by ring

/-! ### Ranks and statistics -/

theorem zero_le_natCast (n : ℕ) : 0 ≤ n.toFloat :=
  hasValue_zero.roundsTo.le (roundsTo_natCast n) (Nat.cast_nonneg n)

theorem zero_le_midrank (start size : ℕ) : 0 ≤ midrank start size := by
  have hhalf : (0 : Float) / 2 ≤ (start + (start + size - 1)).toFloat / 2 :=
    (lifts_div hasValue_two two_pos).le
      (fun a b hab => div_le_div_of_nonneg_right hab two_pos.le) (zero_le_natCast _)
  rw [hasValue_two.zero_div two_pos] at hhalf
  exact zero_le_add hhalf ((hasValue_zero.le_iff hasValue_one).2 zero_le_one)

/-- A rank sum is a number, or the positive infinity. -/
theorem zero_le_rankSum (hnumbers : AllNumbers (x ++ y)) (n : ℕ) :
    0 ≤ sum ((PooledRanks.of x y).ranks.take n) := by
  refine zero_le_sum fun z hz => ?_
  have hmem := List.mem_of_mem_take hz
  rw [PooledRanks.ranks_of hnumbers] at hmem
  obtain ⟨v, -, rfl⟩ := List.mem_map.1 hmem
  exact zero_le_midrank _ _

/-- A natural number far below the overflow bound, divided by two. -/
theorem isFinite_half_natCast {n k : ℕ} (hk : k < 1024) (h : n ≤ 2 ^ k) :
    (n.toFloat / 2).isFinite = true := by
  have hle : |(n : ℝ)| ≤ 2 ^ k := by
    rw [Nat.abs_cast]
    exact_mod_cast h
  exact ((hasValue_natCast_nearest (abs_nearest_lt hk hle)).div_of_one_le hasValue_two
    one_le_two).isFinite

/-- What a finite variance says about its parts. -/
theorem isFinite_of_tiedVariance {n₁ n₂ : ℕ} {t : Float}
    (h : (tiedVariance n₁ n₂ t).isFinite = true) :
    (n₁.toFloat * n₂.toFloat).isFinite = true ∧ t.isFinite = true := by
  obtain ⟨hcells, hsize⟩ := isFinite_of_mul h
  exact ⟨isFinite_of_div hcells, isFinite_of_div (isFinite_of_sub hsize).2⟩

/-- **The statistics are numbers** where the variance is finite. -/
theorem isNaN_statistics (hnumbers : AllNumbers (x ++ y))
    (h : (tiedVariance x.length y.length (PooledRanks.of x y).tieTerm).isFinite = true) :
    (firstStatistic x y).isNaN = false ∧ (secondStatistic x y).isNaN = false := by
  obtain ⟨hcells, hties⟩ := isFinite_of_tiedVariance h
  have hsize : x.length ≤ 2 ^ (64 + 342) := by
    have hle := length_le_of_isFinite_tieTerm hnumbers hties
    rw [List.length_append] at hle
    exact (Nat.le_add_right _ _).trans hle
  have hnumber := isNaN_right_of_le (zero_le_rankSum hnumbers x.length)
  have hleast := isFinite_half_natCast (by norm_num) (mul_succ_le_pow hsize)
  have hfirst := (lifts_sub (hasValue_toReal hleast)).isNaN hnumber
  exact ⟨hfirst, isNaN_sub hcells hfirst⟩

end

/-! ### The score -/

/-- The root of a positive number is positive. -/
theorem exists_hasValue_sqrt_pos {z : Float} {v : ℝ} (hz : HasValue z v) (hv : 0 < v) :
    ∃ s, HasValue z.sqrt s ∧ 0 < s := by
  have hleast : (2 : ℝ) ^ (-1074 : ℤ) ≤ v := by
    obtain ⟨m, e, -, he, rfl⟩ := hz.onGrid
    have hm : 0 < m := by
      by_contra hneg
      exact absurd hv (not_lt.2 (mul_nonpos_of_nonpos_of_nonneg
        (by exact_mod_cast not_lt.1 hneg) (by positivity)))
    have hm1 : (1 : ℝ) ≤ m := by exact_mod_cast hm
    exact (zpow_le_zpow_right₀ one_le_two he).trans (le_mul_of_one_le_left (by positivity) hm1)
  have hroot : (2 : ℝ) ^ (-537 : ℤ) ≤ √v := by
    refine Real.le_sqrt_of_sq_le ?_
    rwa [← zpow_natCast, ← zpow_mul]
  exact ⟨_, hz.sqrt hv.le, lt_of_lt_of_le (by positivity)
    (le_nearest (onGrid_zpow (by norm_num)) hroot)⟩

variable {n₁ n₂ : ℕ} {t u : Float} {v : ℝ}

/-- **The correction for continuity does not raise the score.** -/
theorem score_continuity_le (hv : HasValue (tiedVariance n₁ n₂ t) v) (hpos : 0 < v)
    (hu : u.isNaN = false) : score u n₁ n₂ t true ≤ score u n₁ n₂ t false := by
  obtain ⟨s, hs, hs0⟩ := exists_hasValue_sqrt_pos hv hpos
  have hcells := hasValue_toReal (isFinite_of_tiedVariance hv.isFinite).1
  have hdistance := (lifts_sub (hcells.div_of_one_le hasValue_two one_le_two)).isNaN hu
  have hcorrected : u - n₁.toFloat * n₂.toFloat / 2 - 0.5 ≤ u - n₁.toFloat * n₂.toFloat / 2 :=
    (lifts_sub hasValue_half).le_self (fun a => by linarith) hdistance
  exact (lifts_div hs hs0).le (fun a b hab => div_le_div_of_nonneg_right hab hs0.le) hcorrected

end Campaign.RankSum
