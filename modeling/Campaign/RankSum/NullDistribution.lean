import Campaign.Binary64
import Campaign.RankSum.Gaussian

/-!
# The permutation distribution of the rank-sum statistic

If the samples come from one distribution, all `C(m + n, m)` ways to give `m` of the `m + n` ranks
to one sample are equally likely, and the number of ways with statistic `k` is the `k`-th
coefficient of the Gaussian binomial of `m + n` over `m`.

* `NullDistribution.tabulate`, `NullDistribution.tabulate?`: the table in doubles, the second one
  only up to a bound on its size;
* `NullDistribution.pmf`, `upperTail`, `lowerTail`: probabilities.

## Main statements

* `counts_tabulate`: the table holds the coefficients of the Gaussian binomial.
* `arrangements_eq_sum`: the number of all arrangements is the sum of the table.
-/

namespace Campaign.RankSum

/-- The numbers of arrangements by the value of the statistic. -/
structure NullDistribution where
  /-- The largest value of the statistic. -/
  maxU : Nat
  counts : Vector Float (maxU + 1)
  /-- The number of all arrangements. -/
  arrangements : Float

/-- The largest product of sample sizes that `tabulate?` accepts. -/
def maxCells : Nat := 250000

namespace NullDistribution

/-- The distribution for samples of sizes `n₁` and `n₂`. -/
def tabulate (n₁ n₂ : Nat) : NullDistribution :=
  let m := min n₁ n₂
  let n := max n₁ n₂
  let counts := (FloatTable.coefficients m n).toVector
  { maxU := m * n, counts, arrangements := counts.foldl (· + ·) (-0.0) }

theorem counts_tabulate (n₁ n₂ : Nat) :
    (tabulate n₁ n₂).counts = Gaussian.coefficients Float (min n₁ n₂) (max n₁ n₂) :=
  FloatTable.toVector_coefficients _ _

theorem arrangements_eq_sum (n₁ n₂ : Nat) :
    (tabulate n₁ n₂).arrangements = Binary64.sum (tabulate n₁ n₂).counts.toList := by
  rw [Binary64.sum, Vector.foldl_toList]
  rfl

/-- The distribution, if the table has an acceptable size and its numbers stay finite. -/
def tabulate? (n₁ n₂ : Nat) : Option NullDistribution :=
  if maxCells < n₁ * n₂ then none
  else
    let d := tabulate n₁ n₂
    if d.arrangements.isFinite && d.counts.all Float.isFinite then some d else none

/-- The probability of the value `k`. -/
def pmf (d : NullDistribution) (k : Nat) : Float :=
  if h : k < d.maxU + 1 then d.counts[k] / d.arrangements else 0

/-- The sum of the counts at positions `first`, …, `last - 1`. -/
def countSum (d : NullDistribution) (first last : Nat) : Float :=
  (d.counts.toArray.extract first last).foldl (· + ·) (-0.0)

/-- The probability of a value that is at least `u` rounded down. The distribution is symmetric,
so of the tail and the equal one at the other end the shorter is summed. -/
def upperTail (d : NullDistribution) (u : Float) : Float :=
  if u ≤ 0 then 1
  else
    let start := Binary64.truncate u
    if d.maxU < start then 0
    else
      let reflected := d.maxU - start
      let tail :=
        if reflected < start then d.countSum 0 (reflected + 1) else d.countSum start (d.maxU + 1)
      Binary64.clamp 0 1 (tail / d.arrangements)

/-- The probability of a value that is at most `u` rounded down. -/
def lowerTail (d : NullDistribution) (u : Float) : Float :=
  if u < 0 then 0
  else
    let last := min (Binary64.truncate u) d.maxU
    Binary64.clamp 0 1 (d.countSum 0 (last + 1) / d.arrangements)

end NullDistribution

end Campaign.RankSum
