import Campaign.Proofs.Guarded.Ranks
import Campaign.Proofs.Guarded.Table
import Campaign.Proofs.RankSum.Outcome

/-!
# The rank-sum test by index

The test reads the ranks of the first sample as a slice of all ranks, and there is one for each
pooled value; everything else that it reads by index is in the ranks and in the table.

* `pValue`, `test`: the guarded computations.

## Main statements

* `follows_pValue`, `follows_test`: neither runs into a fault.
-/

namespace Campaign.Guarded

open Binary64 RankSum

section

variable (tail : Float → Float)

/-- The method that is used in the end and the upper tail of `u` by it. -/
def pValue (u : Float) (n₁ n₂ : Nat) (ranks : PooledRanks) (c : Config) :
    Run RankSum.Error (Method × Float) := do
  let exact ← step (if c.resolve n₁ n₂ ranks.hasTies = .exact then table? n₁ n₂ else return none)
  match exact with
  | some (counts, arrangements) =>
    let p ← step (upperTail counts arrangements u)
    return (.exact, p)
  | none =>
    let p ← ofExcept (asymptoticTail tail u n₁ n₂ ranks.tieTerm c.continuity)
    return (.asymptotic, p)

/-- The rank-sum test of `x` against `y`. -/
def test (x y : List Float) (c : Config) : Run RankSum.Error Result := do
  ofExcept (checkInput x y)
  let n₁ := x.length
  let n₂ := y.length
  let ranks ← step (pooledRanks x y)
  let tied ← step (allTied ranks)
  if tied then throw .degenerate
  else
    let first ← step (slice ranks.ranks 0 n₁)
    let u₁ := sum first - (n₁ * (n₁ + 1)).toFloat / 2
    let u₂ := n₁.toFloat * n₂.toFloat - u₁
    let p ← pValue tail (c.alternative.choose u₁ u₂) n₁ n₂ ranks c
    let pvalue ← step (within 0 1 (if c.alternative = .twoSided then p.2 * 2 else p.2))
    return { statistic := u₁, pvalue, method := p.1, alternative := c.alternative }

/-! ### Ranks of the first sample -/

theorem length_ranks_of (x y : List Float) :
    (PooledRanks.of x y).ranks.length = (x ++ y).length := by
  have hkeys := congrArg List.length
    (map_fst_rankRuns 0 (tieRuns (PooledRanks.sortPlaced (x ++ y))))
  rw [List.length_map, length_positions, tieRuns_flatten, PooledRanks.length_sortPlaced] at hkeys
  rw [PooledRanks.of, List.length_map, List.length_mergeSort, hkeys]

theorem rankSum?_of (x y : List Float) :
    (PooledRanks.of x y).rankSum? x.length =
      some (sum ((PooledRanks.of x y).ranks.take x.length)) := by
  rw [PooledRanks.rankSum?, if_pos]
  rw [length_ranks_of, List.length_append]
  exact Nat.le_add_right _ _

/-- The course of a test. -/
theorem test_eq (x y : List Float) (c : Config) :
    RankSum.test tail x y c = (checkInput x y >>= fun _ =>
      if (PooledRanks.of x y).allTied then .error .degenerate
      else
        let u₁ := sum ((PooledRanks.of x y).ranks.take x.length) -
          (x.length * (x.length + 1)).toFloat / 2
        RankSum.pValue tail (c.alternative.choose u₁ (x.length.toFloat * y.length.toFloat - u₁))
          x.length y.length (PooledRanks.of x y) c >>= fun p => .ok (c.report u₁ p)) := by
  rw [RankSum.test]
  simp only [rankSum?_of]
  cases checkInput x y with
  | error e => rfl
  | ok _ =>
    cases (PooledRanks.of x y).allTied <;> rfl

/-! ### The test -/

theorem follows_pValue (u : Float) (n₁ n₂ : Nat) (ranks : PooledRanks) (c : Config) :
    Follows (pValue tail u n₁ n₂ ranks c) (RankSum.pValue tail u n₁ n₂ ranks c) := by
  have htable : (if c.resolve n₁ n₂ ranks.hasTies = .exact then table? n₁ n₂ else .ok none) =
      .ok ((if c.resolve n₁ n₂ ranks.hasTies = .exact then NullDistribution.tabulate? n₁ n₂
        else none).map fun d => (d.counts.toList, d.arrangements)) := by
    split
    · exact table?_eq_ok n₁ n₂
    · rfl
  refine .step htable ?_
  rw [RankSum.pValue]
  cases if c.resolve n₁ n₂ ranks.hasTies = .exact then NullDistribution.tabulate? n₁ n₂
    else none with
  | some d => exact .step (upperTail_eq_ok d u) (follows_pure _)
  | none => exact (follows_ofExcept _).bind fun p _ => follows_pure _

/-- **Testing runs into no fault**, whatever the samples are. -/
theorem follows_test (x y : List Float) (c : Config) :
    Follows (test tail x y c) (RankSum.test tail x y c) := by
  have hfirst : slice (PooledRanks.of x y).ranks 0 x.length =
      .ok ((PooledRanks.of x y).ranks.take x.length) := by
    rw [slice_eq_ok (Nat.zero_le _) (by simp [length_ranks_of]), List.drop_zero]
  rw [test_eq]
  refine (follows_ofExcept _).bind fun _ _ => ?_
  refine .step (pooledRanks_eq_ok x y) (.step (allTied_eq_ok _) ?_)
  split
  · exact follows_throw _
  · refine .step hfirst ((follows_pValue tail _ _ _ _ c).bind fun p _ => ?_)
    exact .step (within_unit _) (follows_pure _)

end

end Campaign.Guarded
