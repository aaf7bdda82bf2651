import Campaign.Decimal.Layout
import Campaign.RankSum.Config
import Campaign.RankSum.NullDistribution
import Campaign.RankSum.Ranks

/-!
# The Mann-Whitney rank-sum test

The statistic is that of the first sample, `U₁ = R₁ - n₁(n₁+1)/2` with `R₁` the sum of its
midranks in the pooled data, and `U₂ = n₁n₂ - U₁`. The alternative chooses the value whose upper
tail is taken: `U₁` for *greater*, `U₂` for *less*, and the larger of the two, with the tail
doubled, for *two-sided*.

The upper tail of the standard normal distribution is a parameter of the asymptotic method.

* `test`: the test of two samples;
* `asymptoticTail`, `pValue`: its two ways to a probability;
* `Error.message`, `Result.text`: what is written.
-/

namespace Campaign.RankSum

/-- Why two samples cannot be compared. -/
inductive Error where
  /-- A sample of size zero. -/
  | emptySample (n₁ n₂ : Nat)
  /-- A value that is infinite or not a number. -/
  | nonFinite
  /-- All pooled values are equal. -/
  | degenerate
  /-- Fewer ranks than values. -/
  | missingRanks
  deriving DecidableEq, Repr

/-- The text of an error. -/
def Error.message : Error → String
  | emptySample n₁ n₂ =>
    String.join ["cannot rank empty samples (n1 = ", toString n₁, ", n2 = ", toString n₂, ")"]
  | nonFinite => "samples contain NaN or infinite values"
  | degenerate => "all observations are tied; the rank-sum test is undefined"
  | missingRanks => "the pooled sample has fewer ranks than values"

/-- The outcome of a test. -/
structure Result where
  /-- The statistic of the first sample. -/
  statistic : Float
  pvalue : Float
  /-- The method that was used in the end. -/
  method : Method
  alternative : Alternative
  deriving DecidableEq

/-- The line that reports a result. -/
def Result.text (r : Result) : String :=
  let figure := Decimal.Style.figure.render
  String.join ["MannwhitneyuResult(statistic=", figure r.statistic, ", pvalue=", figure r.pvalue,
    ")"]

/-- The first reason in the samples themselves not to compare them. -/
def checkInput (x y : List Float) : Except Error Unit :=
  if x.isEmpty || y.isEmpty then .error (.emptySample x.length y.length)
  else if (x ++ y).any (!·.isFinite) then .error .nonFinite
  else .ok ()

/-- The statistic whose upper tail the alternative asks for. -/
def Alternative.choose (a : Alternative) (u₁ u₂ : Float) : Float :=
  match a with
  | .greater => u₁
  | .less => u₂
  | .twoSided => max u₁ u₂

section

variable (tail : Float → Float)

/-- The variance of the statistic, corrected for ties. -/
def tiedVariance (n₁ n₂ : Nat) (tieTerm : Float) : Float :=
  let n := n₁.toFloat + n₂.toFloat
  n₁.toFloat * n₂.toFloat / 12 * ((n + 1) - tieTerm / (n * (n - 1)))

/-- The upper tail of `u` in the normal approximation. -/
def asymptoticTail (u : Float) (n₁ n₂ : Nat) (tieTerm : Float) (continuity : Bool) :
    Except Error Float :=
  let mean := n₁.toFloat * n₂.toFloat / 2
  let variance := tiedVariance n₁ n₂ tieTerm
  if variance ≤ 0 || !variance.isFinite then .error .degenerate
  else
    let z := u - mean
    let z := if continuity then z - 0.5 else z
    .ok (tail (z / variance.sqrt))

/-- The method that is used in the end and the upper tail of `u` by it: an exact table that is too
large gives way to the normal approximation. -/
def pValue (u : Float) (n₁ n₂ : Nat) (ranks : PooledRanks) (c : Config) :
    Except Error (Method × Float) :=
  let table :=
    if c.resolve n₁ n₂ ranks.hasTies = .exact then NullDistribution.tabulate? n₁ n₂ else none
  match table with
  | some d => .ok (.exact, d.upperTail u)
  | none => do return (.asymptotic, ← asymptoticTail tail u n₁ n₂ ranks.tieTerm c.continuity)

/-- The rank-sum test of `x` against `y`. -/
def test (x y : List Float) (c : Config) : Except Error Result := do
  checkInput x y
  let n₁ := x.length
  let n₂ := y.length
  let ranks := PooledRanks.of x y
  if ranks.allTied then throw .degenerate
  let some r₁ := ranks.rankSum? n₁ | throw .missingRanks
  let u₁ := r₁ - (n₁ * (n₁ + 1)).toFloat / 2
  let u₂ := n₁.toFloat * n₂.toFloat - u₁
  let (method, p) ← pValue tail (c.alternative.choose u₁ u₂) n₁ n₂ ranks c
  let p := if c.alternative = .twoSided then p * 2 else p
  return { statistic := u₁, pvalue := Binary64.clamp 0 1 p, method, alternative := c.alternative }

end

end Campaign.RankSum
