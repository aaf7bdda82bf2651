/-!
# The upper tail of the standard normal distribution

Near zero the tail is one half less a power series; further out it is the density divided by
Laplace's continued fraction `z + 1/(z + 2/(z + 3/(z + …)))`. Both converge to double precision
long before the number of terms used here.

* `normalDensity`, `normalUpperTail`.

## Main statements

* `normalUpperTail_le_one`: the tail of every argument is at most one.
-/

namespace Campaign.RankSum

/-- The density of the standard normal distribution; the divisor is `√(2π)`. -/
def normalDensity (z : Float) : Float := Float.exp (-(z * z) / 2) / 2.5066282746310002

/-- The series `z + z³/3 + z⁵/(3·5) + …`: `fuel` more terms after `term`, whose last odd factor is
`odd`. -/
def tailSeries (z : Float) : Nat → Float → Float → Float
  | 0, _, term => term
  | fuel + 1, odd, term => term + tailSeries z fuel (odd + 2) (term * (z * z) / (odd + 2))

/-- The continued fraction `z + 1/(z + 2/(z + …))`, cut off after `depth` levels. -/
def tailFraction (z : Float) (depth : Nat) : Float :=
  (List.range depth).foldr (fun k t => z + (k + 1).toFloat / t) z

/-- The tail beyond a non-negative argument. -/
def halfTail (z : Float) : Float :=
  if z < 2.5 then 0.5 - normalDensity z * tailSeries z 80 1 z
  else normalDensity z / tailFraction z 160

/-- The probability of a value above `z`. The last step keeps the result a probability for
arguments that are not numbers. -/
def normalUpperTail (z : Float) : Float :=
  let p := if z < 0 then 1 - halfTail (-z) else halfTail z
  if p ≤ 1 then p else 1

theorem normalUpperTail_le_one (z : Float) : normalUpperTail z ≤ 1 := by
  simp only [normalUpperTail]
  generalize (if z < 0 then 1 - halfTail (-z) else halfTail z) = p
  by_cases h : p ≤ 1
  · rwa [if_pos h]
  · rw [if_neg h]; decide

end Campaign.RankSum
