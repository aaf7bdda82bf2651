import Campaign.Proofs.Binary64.Extended
import Mathlib.Algebra.BigOperators.Group.List.Basic
import Mathlib.Data.List.ProdSigma
import Mathlib.Tactic.Linarith
import Mathlib.Tactic.Ring

/-!
# Comparing two samples pair by pair

Each value of the one sample meets each value of the other; it wins where it is greater and draws
where it is equal.

* `lower l v`, `equal l v`: how many values of a sample are less than `v`, or equal to it;
* `wins x y`, `draws x y`: the number of pairs that the first sample wins, or draws;
* `pairStatistic x y`: wins, and one half for each draw;
* `AllNumbers`, `AllFinite`, `AllEqual`, `AllDistinct`: conditions on a sample.

## Main statements

* `wins_add_draws_add_wins`: every pair is won by one of the samples or drawn.
* `two_mul_wins_self`: a sample against itself wins as many pairs as it loses.
-/

namespace Campaign.RankSum

open Binary64

/-- The number of values less than `v`. -/
def lower (l : List Float) (v : Float) : ℕ := l.countP (· < v)

/-- The number of values equal to `v`. -/
def equal (l : List Float) (v : Float) : ℕ := l.countP (· == v)

/-- The number of pairs in which the value from `x` is the greater one. -/
def wins (x y : List Float) : ℕ := (x ×ˢ y).countP fun p => p.2 < p.1

/-- The number of pairs of equal values. -/
def draws (x y : List Float) : ℕ := (x ×ˢ y).countP fun p => p.1 == p.2

/-- The statistic of `x` against `y`: the pairs that `x` wins, and one half for each draw. -/
def pairStatistic (x y : List Float) : ℚ := wins x y + 1 / 2 * draws x y

/-- All values are numbers, finite or not. -/
def AllNumbers (l : List Float) : Prop := ∀ v ∈ l, v.isNaN = false

/-- All values are finite. -/
def AllFinite (l : List Float) : Prop := ∀ v ∈ l, v.isFinite = true

/-- All values are equal; `-0.0` and `0.0` are. -/
def AllEqual (l : List Float) : Prop := ∀ v ∈ l, ∀ w ∈ l, (v == w) = true

/-- No two values are equal. -/
def AllDistinct (l : List Float) : Prop := l.Pairwise fun v w => (v == w) = false

instance (l : List Float) : Decidable (AllNumbers l) := inferInstanceAs (Decidable (∀ v ∈ l, _))

instance (l : List Float) : Decidable (AllFinite l) := inferInstanceAs (Decidable (∀ v ∈ l, _))

instance (l : List Float) : Decidable (AllEqual l) :=
  inferInstanceAs (Decidable (∀ v ∈ l, ∀ w ∈ l, _))

instance (l : List Float) : Decidable (AllDistinct l) :=
  inferInstanceAs (Decidable (l.Pairwise _))

theorem AllFinite.append {x y : List Float} (h : AllFinite (x ++ y)) : AllFinite x ∧ AllFinite y :=
  ⟨fun v hv => h v (List.mem_append_left _ hv), fun v hv => h v (List.mem_append_right _ hv)⟩

theorem AllFinite.numbers {l : List Float} (h : AllFinite l) : AllNumbers l :=
  fun v hv => (hasValue_toReal (h v hv)).isNaN

/-! ### Comparing finite doubles -/

section

variable {v w : Float}

theorem lt_iff_toReal (hv : v.isFinite = true) (hw : w.isFinite = true) :
    v < w ↔ toReal v < toReal w :=
  (hasValue_toReal hv).lt_iff (hasValue_toReal hw)

theorem beq_iff_toReal (hv : v.isFinite = true) (hw : w.isFinite = true) :
    (v == w) = true ↔ toReal v = toReal w :=
  (hasValue_toReal hv).beq_iff (hasValue_toReal hw)

end

/-! ### Counting against one value -/

theorem lower_append (x y : List Float) (v : Float) : lower (x ++ y) v = lower x v + lower y v :=
  List.countP_append

theorem equal_append (x y : List Float) (v : Float) : equal (x ++ y) v = equal x v + equal y v :=
  List.countP_append

theorem lower_add_equal_add {l : List Float} (hl : AllNumbers l) {v : Float}
    (hv : v.isNaN = false) : lower l v + equal l v + l.countP (v < ·) = l.length := by
  induction l with
  | nil => rfl
  | cons w l ih =>
    have hw := hl w List.mem_cons_self
    have ih := ih fun u hu => hl u (List.mem_cons_of_mem w hu)
    simp only [lower, equal, List.countP_cons, List.length_cons, decide_eq_true_eq,
      lt_iff_toEReal hw hv, lt_iff_toEReal hv hw, beq_iff_toEReal hw hv] at *
    rcases lt_trichotomy (toEReal w) (toEReal v) with h | h | h
    · rw [if_pos h, if_neg h.ne, if_neg h.not_gt]; omega
    · rw [if_neg h.not_lt, if_pos h, if_neg h.not_gt]; omega
    · rw [if_neg h.not_gt, if_neg h.ne', if_pos h]; omega

theorem one_le_equal {l : List Float} (hl : AllNumbers l) {v : Float} (hv : v ∈ l) :
    1 ≤ equal l v :=
  List.countP_pos_iff.2 ⟨v, hv, (beq_iff_toEReal (hl v hv) (hl v hv)).2 rfl⟩

/-! ### Counting pairs -/

theorem countP_product {α β : Type} (x : List α) (y : List β) (p : α × β → Bool) :
    (x ×ˢ y).countP p = (x.map fun a => y.countP fun b => p (a, b)).sum := by
  induction x with
  | nil => rfl
  | cons a x ih =>
    rw [List.product_cons, List.countP_append, ih, List.countP_map, List.map_cons, List.sum_cons]
    rfl

theorem wins_eq_sum (x y : List Float) : wins x y = (x.map (lower y)).sum :=
  countP_product x y _

theorem draws_eq_sum (x y : List Float) : draws x y = (x.map (equal y)).sum := by
  rw [draws, countP_product]
  congr 1
  refine List.map_congr_left fun v _ => List.countP_congr fun w _ => ?_
  rw [BEq.comm]

theorem wins_cons_right (x : List Float) (v : Float) (y : List Float) :
    wins x (v :: y) = x.countP (v < ·) + wins x y := by
  induction x with
  | nil => rfl
  | cons w x ih =>
    rw [wins_eq_sum, wins_eq_sum] at *
    rw [List.map_cons, List.sum_cons, ih, List.map_cons, List.sum_cons, lower, List.countP_cons,
      List.countP_cons, lower]
    omega

/-- **Every pair is decided one way or drawn.** -/
theorem wins_add_draws_add_wins {x y : List Float} (hx : AllFinite x) (hy : AllFinite y) :
    wins x y + draws x y + wins y x = x.length * y.length := by
  induction x with
  | nil => simp [wins, draws, List.nil_product, List.product_nil]
  | cons v x ih =>
    have hv := hx v List.mem_cons_self
    have hx' : AllFinite x := fun w hw => hx w (List.mem_cons_of_mem v hw)
    have hone := lower_add_equal_add hy.numbers (hasValue_toReal hv).isNaN
    have ih := ih hx'
    rw [wins_eq_sum, draws_eq_sum] at ih
    rw [wins_cons_right, wins_eq_sum, draws_eq_sum, List.map_cons, List.sum_cons,
      List.map_cons, List.sum_cons, List.length_cons, Nat.add_mul, Nat.one_mul]
    omega

theorem two_mul_pairStatistic (x y : List Float) :
    2 * pairStatistic x y = (2 * wins x y + draws x y : ℕ) := by
  rw [pairStatistic]
  push_cast
  ring

theorem pairStatistic_mem {x y : List Float} (hx : AllFinite x) (hy : AllFinite y) :
    0 ≤ pairStatistic x y ∧ pairStatistic x y ≤ (x.length * y.length : ℕ) := by
  have hpairs := wins_add_draws_add_wins hx hy
  have hle : 2 * wins x y + draws x y ≤ 2 * (x.length * y.length) := by omega
  have hle' : 2 * pairStatistic x y ≤ 2 * (x.length * y.length : ℕ) := by
    rw [two_mul_pairStatistic]
    exact_mod_cast hle
  have h0 : 0 ≤ 2 * pairStatistic x y := by
    rw [two_mul_pairStatistic]
    exact Nat.cast_nonneg _
  constructor <;> linarith

theorem two_mul_wins_self {x : List Float} (hx : AllFinite x) :
    2 * wins x x + draws x x = x.length * x.length := by
  have := wins_add_draws_add_wins hx hx
  omega

end Campaign.RankSum
