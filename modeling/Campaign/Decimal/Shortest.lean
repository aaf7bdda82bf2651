import Campaign.Decimal.Basic

/-!
# Shortest digits

The shortest decimal that reads back to a given double, and among those of that length the one
nearest to the double's exact value.

The doubles next to `m · 2^q` bound an interval of reals that round to it. `inGrid` looks on the
grid of multiples of a power of ten at the two points around the value, and `shortest` tries the
grids from one digit to seventeen.

* `Interval`: the reals that round to a double, in units of a quarter of its last place;
* `shortest`: the digits and their power of ten.

## Main statements

* `inGrid_contains`: a chosen grid point rounds to the double.
-/

namespace Campaign.Decimal

/-- The reals that round to `m · 2^q`, in units of `2^(q-2)`. The ends belong to it when the
mantissa is even. -/
structure Interval where
  low : Nat
  middle : Nat
  high : Nat
  closed : Bool
  deriving DecidableEq, Repr

/-- The interval of `m · 2^q`: half a unit on both sides, but a quarter below a power of two,
where the doubles are twice as dense. The least exponent has no denser neighbours. -/
def Interval.of (m : Nat) (q : Int) : Interval where
  low := if m = Nat.pow 2 52 ∧ q ≠ -1074 then 4 * m - 1 else 4 * m - 2
  middle := 4 * m
  high := 4 * m + 2
  closed := m % 2 = 0

/-- Whether a point, in units `1 / scale` of those of the interval, lies in it. -/
def Interval.contains (i : Interval) (scale point : Nat) : Bool :=
  if i.closed then i.low * scale ≤ point && point ≤ i.high * scale
  else i.low * scale < point && point < i.high * scale

/-- The multiple of `step` in the interval that is nearest to the middle, as a factor of `step`;
both are in units `1 / scale`. Of the multiples in the interval one is next to the middle, so
only those two are looked at. -/
def inGrid (i : Interval) (scale step : Nat) (tie : Tie) : Option Nat :=
  let below := i.middle * scale / step
  match i.contains scale (below * step), i.contains scale ((below + 1) * step) with
  | true, true => some (roundDiv (i.middle * scale) step tie)
  | true, false => some below
  | false, true => some (below + 1)
  | false, false => none

/-- The first grid from `10^place` downwards that has a point in the interval of `m · 2^q`; after
`fuel` grids the nearest point of the next one. -/
def search (m : Nat) (q : Int) (tie : Tie) : Nat → Int → Decimal
  | 0, place =>
    let (num, den) := scaled m q (-place)
    ⟨roundDiv num den tie, place⟩
  | fuel + 1, place =>
    let (scale, step) := scaled 1 (q - 2) (-place)
    match inGrid (Interval.of m q) scale step tie with
    | some n => ⟨n, place⟩
    | none => search m q tie fuel (place - 1)

/-- Moves the zeros at the end of the coefficient into the exponent. -/
def stripZeros (d : Decimal) : Decimal :=
  if h : d.coefficient ≠ 0 ∧ d.coefficient % 10 = 0 then
    stripZeros ⟨d.coefficient / 10, d.exponent + 1⟩
  else d
termination_by d.coefficient
decreasing_by omega

/-- The shortest decimal that reads back to `m · 2^q`, and of those the nearest; seventeen digits
always suffice. -/
def shortest (m : Nat) (q : Int) (tie : Tie) : Decimal :=
  if m = 0 then ⟨0, 0⟩
  else stripZeros (search m q tie 17 (leadingPlace m q - 1))

theorem roundDiv_eq (num den : Nat) (tie : Tie) :
    roundDiv num den tie = num / den ∨ roundDiv num den tie = num / den + 1 := by
  have parity : num / den % 2 = 0 ∨ num / den % 2 = 1 := by omega
  simp only [roundDiv]
  cases compare (2 * (num % den)) den with
  | lt => exact .inl rfl
  | gt => exact .inr rfl
  | eq =>
    cases tie with
    | up => exact .inr rfl
    | toEven => dsimp only; omega

theorem inGrid_contains {i : Interval} {scale step n : Nat} {tie : Tie}
    (h : inGrid i scale step tie = some n) : i.contains scale (n * step) = true := by
  simp only [inGrid] at h
  split at h
  · rename_i h0 h1
    cases h
    rcases roundDiv_eq (i.middle * scale) step tie with e | e <;> rw [e] <;> assumption
  · cases h; assumption
  · cases h; assumption
  · cases h

end Campaign.Decimal
