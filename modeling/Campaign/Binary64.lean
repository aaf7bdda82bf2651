/-!
# Doubles as exact numbers

A double is not a number, a signed infinity, or exactly `±m · 2^q`.

* `Binary64.value`: that reading of a double;
* `Binary64.totalKey`: the place of a double in the total order, which puts `-0.0` below `0.0`
  and not-a-number above everything;
* `Binary64.floor?`, `Binary64.ceil?`: the neighbouring integers of a finite double;
* `Binary64.truncate`, `Binary64.ceilNat`: a double used as an index;
* `Binary64.sum`: the sum from the left, `-0.0` for no numbers.

## Main statements

* `le_total_totalLE`, `totalLE_trans`: the total order is total and transitive.
* `sum_append_singleton`: a sum grows by its last number.
-/

namespace Campaign.Binary64

/-- What a double stands for: not a number, a signed infinity, or `±m · 2^q`. -/
inductive Value where
  | nan
  | infinite (negative : Bool)
  | finite (negative : Bool) (m : Nat) (q : Int)
  deriving DecidableEq, Repr

open Float.Model in
/-- The exact value of a double; a zero keeps its sign and has the least exponent. -/
def value (x : Float) : Value :=
  match x.toModel.unpack with
  | .notANumber => .nan
  | .infinity s => .infinite (isNegative s)
  | .zero s => .finite (isNegative s) 0 (-1074)
  | .finite s m q _ => .finite (isNegative s) m q
where
  /-- Whether a sign is the minus sign. -/
  isNegative : UnpackedFloat.Sign → Bool
    | .negative => true
    | .positive => false

/-! ### The total order -/

/-- The place of a double in the total order: its magnitude bits, reflected below zero for a
negative sign, so that `-0.0` has key `-1` and `0.0` has key `0`. -/
def totalKey (x : Float) : Int :=
  let bits := x.toBits.toNat
  if bits < 9223372036854775808 then bits else 9223372036854775807 - (bits : Int)

/-- Order by `totalKey`. -/
def totalLE (x y : Float) : Bool := totalKey x ≤ totalKey y

theorem totalLE_trans (x y z : Float) : totalLE x y → totalLE y z → totalLE x z := by
  simp only [totalLE, decide_eq_true_eq]; exact Int.le_trans

theorem le_total_totalLE (x y : Float) : totalLE x y || totalLE y x := by
  simp only [totalLE, Bool.or_eq_true, decide_eq_true_eq]; exact Int.le_total _ _

/-! ### Whole numbers -/

/-- `⌊n / d⌋` and `⌈n / d⌉` of a finite double are those of its numerator `±m · 2^q` over a
power of two. -/
def fraction (negative : Bool) (m : Nat) (q : Int) : Int × Nat :=
  let n : Int := if negative then -(m : Int) else m
  (n * (Nat.pow 2 q.toNat : Int), Nat.pow 2 (-q).toNat)

/-- The greatest integer not above a finite double. -/
def floor? (x : Float) : Option Int :=
  match value x with
  | .finite s m q => let (n, d) := fraction s m q; some (n / d)
  | _ => none

/-- The least integer not below a finite double. -/
def ceil? (x : Float) : Option Int :=
  match value x with
  | .finite s m q => let (n, d) := fraction s m q; some (-(-n / d))
  | _ => none

/-- The whole part as an index: `0` for a negative double and for not-a-number, and the largest
64-bit index for one that is too large. -/
def truncate (x : Float) : Nat := x.toUInt64.toNat

/-- The least index not below the double, with the conventions of `truncate`. -/
def ceilNat (x : Float) : Nat :=
  let k := truncate x
  if k.toFloat < x then k + 1 else k

/-! ### Sums and bounds -/

/-- The sum from the left. It starts at `-0.0`, the neutral element of addition, so a sum of
negative zeros keeps its sign. -/
def sum (xs : List Float) : Float := xs.foldl (· + ·) (-0.0)

theorem sum_nil : sum [] = -0.0 := rfl

theorem sum_append_singleton (xs : List Float) (x : Float) : sum (xs ++ [x]) = sum xs + x := by
  simp [sum, List.foldl_append]

/-- The nearest point of `[lo, hi]`; not-a-number stays as it is. -/
def clamp (lo hi x : Float) : Float :=
  if x < lo then lo else if hi < x then hi else x

end Campaign.Binary64
