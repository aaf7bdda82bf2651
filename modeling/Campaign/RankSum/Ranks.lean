import Campaign.Binary64

/-!
# Midranks of the pooled sample

The values of both samples are sorted together, and each run of equal values shares the mean of
the ranks that it spans. Sorting uses the total order of doubles, in which `-0.0` comes before
`0.0`; runs are formed by numerical equality, for which they are equal.

* `tieRuns`: a sorted list cut into its runs of equal values;
* `PooledRanks.of`: the ranks in the order of the input, and the sizes of the runs of more than
  one value.

## Main statements

* `tieRuns_flatten`: cutting into runs loses nothing.
-/

namespace Campaign.RankSum

/-- A value of the pooled sample with its position there. -/
abbrev Placed := Float × Nat

/-- Cuts a list into runs of values equal to the first of the run. -/
def tieRuns : List Placed → List (List Placed)
  | [] => []
  | a :: l =>
    (a :: l.takeWhile (·.1 == a.1)) :: tieRuns (l.dropWhile (·.1 == a.1))
termination_by l => l.length
decreasing_by
  have := (List.dropWhile_sublist (fun b : Placed => b.1 == a.1) (l := l)).length_le
  simp only [List.length_cons]; omega

theorem tieRuns_flatten (l : List Placed) : (tieRuns l).flatten = l := by
  fun_induction tieRuns l with
  | case1 => rfl
  | case2 a l ih => simp [ih, List.takeWhile_append_dropWhile]

/-- The mean of the `size` ranks that follow the first `start` ones. -/
def midrank (start size : Nat) : Float := (start + (start + size - 1)).toFloat / 2 + 1

/-- The positions of the values of each run with the rank that the run shares. -/
def rankRuns : Nat → List (List Placed) → List (Nat × Float)
  | _, [] => []
  | start, run :: runs =>
    run.map (fun a => (a.2, midrank start run.length)) ++ rankRuns (start + run.length) runs

/-- The midranks of a pooled sample. -/
structure PooledRanks where
  /-- The rank of each value, in the order of the input; the least rank is one. -/
  ranks : List Float
  /-- The sizes of the runs of more than one equal value, by increasing value. -/
  tieGroups : List Nat

namespace PooledRanks

/-- The pooled values with their positions, sorted; equal keys keep their order. -/
def sortPlaced (pooled : List Float) : List Placed :=
  pooled.zipIdx.mergeSort fun a b => Binary64.totalLE a.1 b.1

/-- The ranks of the values of `x` followed by those of `y`. -/
def of (x y : List Float) : PooledRanks :=
  let runs := tieRuns (sortPlaced (x ++ y))
  { ranks := ((rankRuns 0 runs).mergeSort fun a b => a.1 ≤ b.1).map (·.2)
    tieGroups := (runs.map List.length).filter (1 < ·) }

/-- Whether two values are equal. -/
def hasTies (r : PooledRanks) : Bool := !r.tieGroups.isEmpty

/-- Whether all values are equal, and there are at least two. -/
def allTied (r : PooledRanks) : Bool := r.tieGroups = [r.ranks.length]

/-- The sum of `t³ - t` over the sizes `t` of the tie groups. -/
def tieTerm (r : PooledRanks) : Float :=
  Binary64.sum (r.tieGroups.map fun t =>
    let t := t.toFloat
    t * t * t - t)

/-- The sum of the first `n` ranks, if there are as many. -/
def rankSum? (r : PooledRanks) (n : Nat) : Option Float :=
  if n ≤ r.ranks.length then some (Binary64.sum (r.ranks.take n)) else none

end PooledRanks

end Campaign.RankSum
