import Campaign.Proofs.RankSum.Partitions
import Campaign.Proofs.RankSum.Table

/-!
# The table while it is filled

Every update that fills the table, and every addition that sums it, takes place between integers
whose magnitude is at most the number of all arrangements, although a multiplication leaves numbers
below zero in the table. So nothing is rounded while that number is one that a double holds.

* `updates`, `stages`: the updates that fill a table, and the tables on the way.

## Main statements

* `hasValue_sum_take`: the sums of the first places of the table.
* `tabulate_throughout`: every stage from the first update to the last addition.
-/

namespace Campaign.RankSum

open Binary64 Finset Gaussian

namespace NullDistribution

/-- The updates that fill the table for samples of sizes `n₁` and `n₂`. -/
def updates (n₁ n₂ : ℕ) : List (Update ((tabulate n₁ n₂).maxU + 1)) :=
  Gaussian.updates (max n₁ n₂) (min n₁ n₂)

/-- The table at every stage: zeros, then the polynomial `1` and what the updates make of it. -/
def stages (α : Type) [OfNat α 0] [OfNat α 1] [Add α] [Sub α] (n₁ n₂ : ℕ) :
    List (Vector α ((tabulate n₁ n₂).maxU + 1)) :=
  Vector.replicate _ 0 :: (updates n₁ n₂).inits.map fun before => run before (one _)

variable {n₁ n₂ : ℕ}

theorem run_mem_stages (α : Type) [OfNat α 0] [OfNat α 1] [Add α] [Sub α]
    {before : List (Update ((tabulate n₁ n₂).maxU + 1))} (h : before <+: updates n₁ n₂) :
    run before (one _) ∈ stages α n₁ n₂ :=
  List.mem_cons_of_mem _ (List.mem_map_of_mem ((List.mem_inits _ _).2 h))

theorem counts_eq_run (n₁ n₂ : ℕ) : (tabulate n₁ n₂).counts = run (updates n₁ n₂) (one _) :=
  (counts_tabulate n₁ n₂).trans (run_updates _ _ _).symm

/-! ### Over the integers -/

theorem throughout_bounded {b : ℤ} (h : (n₁ + n₂).choose n₁ ≤ b) :
    Throughout (Bounded b) (updates n₁ n₂) (one _) := by
  refine (throughout_updates fun k => ?_).1
  have hcount : count (min n₁ n₂) (max n₁ n₂) k ≤ (n₁ + n₂).choose n₁ :=
    (count_min n₁ n₂ k).trans_le (count_le n₁ n₂ k)
  exact (Int.ofNat_le.2 hcount).trans h

theorem throughout_small (h : (n₁ + n₂).choose n₁ ≤ 2 ^ 53) :
    Throughout (Bounded (2 ^ 53)) (updates n₁ n₂) (one _) :=
  throughout_bounded (by exact_mod_cast h)

theorem bounded_of_mem_stages {row : Vector ℤ ((tabulate n₁ n₂).maxU + 1)}
    (h : row ∈ stages ℤ n₁ n₂) : Bounded ((n₁ + n₂).choose n₁) row := by
  obtain rfl | hrun := List.mem_cons.1 h
  · intro k hk
    rw [Vector.getElem_replicate, abs_zero]
    exact Int.natCast_nonneg _
  · obtain ⟨before, hbefore, rfl⟩ := List.mem_map.1 hrun
    exact throughout_bounded le_rfl before ((List.mem_inits _ _).1 hbefore)

theorem getElem_partialCoefficients (m n i : ℕ) {k : ℕ} (hk : k < m * n + 1) :
    (partialCoefficients ℤ m n i)[k] = #(boxed i n k) := by
  have hbox : Holds (run (Gaussian.updates n i) (one (m * n + 1))) (box i n) :=
    (throughout_updates fun k => Int.ofNat_le.2 (count_le i n k)).2
  rw [card_boxed, ← coeff_box, ← hbox k hk, run_updates]

/-! ### The sum of the table -/

theorem hasValue_sum_take (h : (n₁ + n₂).choose n₁ ≤ 2 ^ 53) {j : ℕ} (hj : j ≤ n₁ * n₂ + 1) :
    HasValue (Binary64.sum ((tabulate n₁ n₂).counts.toList.take j))
      (∑ k ∈ range j, count n₁ n₂ k : ℕ) := by
  have htake : (tabulate n₁ n₂).counts.toList.take j =
      ((List.range j).map (count n₁ n₂)).map Nat.toFloat := by
    rw [toList_counts fun k => (count_le n₁ n₂ k).trans h, ← List.map_take, List.take_range,
      min_eq_left hj, List.map_map]
    rfl
  have hsum : ∑ k ∈ range j, count n₁ n₂ k ≤ 2 ^ 53 := by
    rw [range_eq_Ico]
    exact (sum_count_le n₁ n₂ 0 j).trans h
  rw [htake]
  exact hasValue_sum_toFloat hsum

/-- Each addition of the sum is exact. -/
theorem hasValue_sum_take_add (h : (n₁ + n₂).choose n₁ ≤ 2 ^ 53) {k : ℕ}
    (hk : k < (tabulate n₁ n₂).maxU + 1) :
    HasValue
      (Binary64.sum ((tabulate n₁ n₂).counts.toList.take k) + (tabulate n₁ n₂).counts[k])
      (toReal (Binary64.sum ((tabulate n₁ n₂).counts.toList.take k)) +
        toReal (tabulate n₁ n₂).counts[k]) := by
  have hle : k + 1 ≤ n₁ * n₂ + 1 := by rwa [maxU_tabulate] at hk
  have hbefore := hasValue_sum_take h (Nat.le_of_succ_le hle)
  have hafter := hasValue_sum_take h hle
  have hcount := hasValue_natCast ((count_le n₁ n₂ k).trans h)
  rw [List.take_succ_eq_append_getElem (by simpa using hk), sum_append_singleton,
    Vector.getElem_toList, sum_range_succ, Nat.cast_add, ← hbefore.toReal_eq] at hafter
  rw [← getElem_counts h hk] at hcount
  rwa [hcount.toReal_eq]

/-! ### Every stage -/

theorem stages_eq_map (h : (n₁ + n₂).choose n₁ ≤ 2 ^ 53) :
    stages Float n₁ n₂ = (stages ℤ n₁ n₂).map (Vector.map Float.ofInt) := by
  rw [stages, stages, List.map_cons, Vector.map_replicate, List.map_map]
  refine congrArg₂ List.cons rfl (List.map_congr_left fun before hbefore => ?_)
  have hfirst := (throughout_small h).of_isPrefix ((List.mem_inits _ _).1 hbefore)
  rw [Function.comp_apply, ← run_map_ofInt hfirst, map_ofInt_one]

/-- **Every stage of the construction.** Read over the integers, no number in the table ever
exceeds the number of all arrangements, and after `i` factors the places hold the numbers of
partitions with at most `i` parts. If a double holds the number of all arrangements, then doubles
go through the same tables: no update rounds, and no addition of the sum does. -/
theorem tabulate_throughout (n₁ n₂ : ℕ) :
    (tabulate n₁ n₂).counts = run (updates n₁ n₂) (one _) ∧
      (tabulate n₁ n₂).arrangements = Binary64.sum (tabulate n₁ n₂).counts.toList ∧
      (∀ row ∈ stages ℤ n₁ n₂, ∀ k (hk : k < (tabulate n₁ n₂).maxU + 1),
        |row[k]| ≤ (n₁ + n₂).choose n₁) ∧
      (∀ i ≤ min n₁ n₂,
        partialCoefficients ℤ (min n₁ n₂) (max n₁ n₂) i ∈ stages ℤ n₁ n₂ ∧
        partialCoefficients ℤ (min n₁ n₂) (max n₁ n₂) i =
          run (Gaussian.updates (max n₁ n₂) i) (one _) ∧
        ∀ k (hk : k < min n₁ n₂ * max n₁ n₂ + 1),
          (partialCoefficients ℤ (min n₁ n₂) (max n₁ n₂) i)[k] = #(boxed i (max n₁ n₂) k)) ∧
      ((n₁ + n₂).choose n₁ ≤ 2 ^ 53 →
        stages Float n₁ n₂ = (stages ℤ n₁ n₂).map (Vector.map Float.ofInt) ∧
        (∀ before u after, updates n₁ n₂ = before ++ u :: after →
          u.IsExact (run before (one _))) ∧
        ∀ k (hk : k < (tabulate n₁ n₂).maxU + 1), HasValue
          (Binary64.sum ((tabulate n₁ n₂).counts.toList.take k) + (tabulate n₁ n₂).counts[k])
          (toReal (Binary64.sum ((tabulate n₁ n₂).counts.toList.take k)) +
            toReal (tabulate n₁ n₂).counts[k])) := by
  refine ⟨counts_eq_run n₁ n₂, arrangements_eq_sum n₁ n₂, fun row => bounded_of_mem_stages,
    fun i hi => ?_, fun h => ⟨stages_eq_map h, fun before u after hus => ?_,
      fun k hk => hasValue_sum_take_add h hk⟩⟩
  · have hrun : run (Gaussian.updates (max n₁ n₂) i) (one _) =
        partialCoefficients ℤ (min n₁ n₂) (max n₁ n₂) i := run_updates _ _ _
    exact ⟨hrun ▸ run_mem_stages ℤ (updates_isPrefix _ hi), hrun.symm,
      fun k hk => getElem_partialCoefficients _ _ i hk⟩
  · rw [← map_ofInt_one]
    exact isExact_of_throughout (throughout_small h) hus

/-- In the middle of the second factor for samples of sizes `2` and `3`, where the table holds
numbers below zero. -/
theorem tabulate_throughout_two_three :
    (2 + 3).choose 2 ≤ 2 ^ 53 ∧ ∃ before u after, updates 2 3 = before ++ u :: after ∧
      (run before (one _) : Vector ℤ _).toList = [1, 1, 1, 1, 0, -1, -1] ∧
      (∀ k (hk : k < (tabulate 2 3).maxU + 1),
        |(run before (one _) : Vector ℤ ((tabulate 2 3).maxU + 1))[k]| ≤ (2 + 3).choose 2) ∧
      u.IsExact (run before (one _)) ∧
      (partialCoefficients ℤ 2 3 2).toList = [1, 1, 2, 2, 2, 1, 1] ∧ #(boxed 2 3 3) = 2 := by
  obtain ⟨-, -, hbounded, hfactors, hexact⟩ := tabulate_throughout 2 3
  have hchoose : (2 + 3).choose 2 ≤ 2 ^ 53 := by decide
  have hsplit : updates 2 3 =
      (updates 2 3).take 11 ++ (updates 2 3)[11] :: (updates 2 3).drop 12 := rfl
  have hboxed := (hfactors 2 le_rfl).2.2 3 (by decide)
  have hthree : (partialCoefficients ℤ 2 3 2)[3] = 2 := by decide
  refine ⟨hchoose, _, _, _, hsplit, by decide, ?_, (hexact hchoose).2.1 _ _ _ hsplit, by decide, ?_⟩
  · exact hbounded _ (run_mem_stages ℤ ⟨_, List.take_append_drop 11 _⟩)
  · exact_mod_cast hboxed.symm.trans hthree

end NullDistribution

end Campaign.RankSum
