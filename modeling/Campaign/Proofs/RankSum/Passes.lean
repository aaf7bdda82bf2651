import Campaign.Proofs.Binary64.Whole
import Campaign.Proofs.RankSum.Arrangements
import Campaign.Proofs.RankSum.Updates

/-!
# Passes over the table

A multiplication by `1 - q^s` goes down and a division by it goes up, but both pass through the same
tables: below some place they hold a polynomial, from that place on its product with `1 - q^s`. In
either direction an update moves the place by one. Before and after a pass the table holds a
Gaussian binomial, or the difference of two shifted ones, so that no number at any moment exceeds
the numbers of arrangements, and doubles can follow without rounding.

* `PartlyMultiplied s d p`: the tables between a polynomial `p` and its product with `1 - q^s`;
* `Bounded b`: no number of a table exceeds `b`;
* `Update.IsExact`: an update in doubles that does not round;
* `Tabulates v p`: the doubles in `v` are the coefficients of the polynomial `p`.

## Main statements

* `PartlyMultiplied.throughout_descending`, `PartlyMultiplied.throughout_ascending`: one pass.
* `throughout_updates`: every moment over the integers, and what is there in the end.
* `run_map_ofInt`, `isExact_of_throughout`: doubles follow small integers exactly.
* `tabulates_partialCoefficients`: after `i` factors the table holds `box i n`.
-/

namespace Campaign.RankSum

open Binary64 Finset Polynomial

namespace Gaussian

/-! ### The coefficients of a product -/

theorem coeff_one_sub_mul (s : ℕ) (p : ℤ[X]) (k : ℕ) :
    ((1 - X ^ s) * p).coeff k = if s ≤ k then p.coeff k - p.coeff (k - s) else p.coeff k := by
  rw [sub_mul, one_mul, coeff_sub, coeff_X_pow_mul']
  split_ifs
  · rfl
  · exact sub_zero _

section

variable {m n : ℕ} {b : ℤ}

theorem abs_coeff_box_le (h : ∀ k, (count m n k : ℤ) ≤ b) (k : ℕ) : |(box m n).coeff k| ≤ b := by
  rw [coeff_box, Nat.abs_cast]
  exact h k

/-- Between a multiplication and the division after it, the numbers in the table are differences of
two numbers of arrangements. -/
theorem abs_coeff_one_sub_mul_box_le (h : ∀ k, (count m n k : ℤ) ≤ b) (s k : ℕ) :
    |((1 - X ^ s) * box m n).coeff k| ≤ b := by
  rw [coeff_one_sub_mul]
  split_ifs
  · have := h k
    have := h (k - s)
    rw [coeff_box, coeff_box, abs_le]
    constructor <;> omega
  · exact abs_coeff_box_le h k

end

/-! ### Tables of integers -/

section

variable {size s d t m n : ℕ} {p : ℤ[X]} {row : Vector ℤ size} {b : ℤ}

/-- The integers in a table are the coefficients of a polynomial, as far as the table goes. -/
def Holds (row : Vector ℤ size) (p : ℤ[X]) : Prop := ∀ k (hk : k < size), row[k] = p.coeff k

/-- Below the place `s + d` the table holds a polynomial, from there on its product with
`1 - q^s`. -/
def PartlyMultiplied (s d : ℕ) (p : ℤ[X]) (row : Vector ℤ size) : Prop :=
  ∀ k (hk : k < size), row[k] = if k < s + d then p.coeff k else ((1 - X ^ s) * p).coeff k

/-- No number of a table exceeds a bound in magnitude. -/
def Bounded (b : ℤ) (row : Vector ℤ size) : Prop := ∀ k (hk : k < size), |row[k]| ≤ b

theorem Holds.bounded (h : Holds row p) (hp : ∀ k, |p.coeff k| ≤ b) : Bounded b row := by
  intro k hk
  rw [h k hk]
  exact hp k

theorem PartlyMultiplied.bounded (h : PartlyMultiplied s d p row) (hp : ∀ k, |p.coeff k| ≤ b)
    (hmul : ∀ k, |((1 - X ^ s) * p).coeff k| ≤ b) : Bounded b row := by
  intro k hk
  rw [h k hk]
  split_ifs
  · exact hp k
  · exact hmul k

/-! ### Both ends of a pass -/

theorem partlyMultiplied_all : PartlyMultiplied s (size - s) p row ↔ Holds row p := by
  refine forall₂_congr fun k hk => ?_
  rw [if_pos (by omega)]

/-- Below the place `s` the product agrees with the polynomial. -/
theorem partlyMultiplied_zero : PartlyMultiplied s 0 p row ↔ Holds row ((1 - X ^ s) * p) := by
  refine forall₂_congr fun k hk => ?_
  split_ifs with h
  · rw [coeff_one_sub_mul, if_neg (by omega)]
  · rfl

/-! ### One update -/

theorem PartlyMultiplied.subtract (h : s + d < size) (hrow : PartlyMultiplied s (d + 1) p row) :
    PartlyMultiplied s d p ((Update.shifted .subtract s d h).apply row) := by
  intro k hk
  -- both places that are read still hold the polynomial
  have hnew : row[s + d] - row[d] = ((1 - X ^ s) * p).coeff (s + d) := by
    rw [hrow, hrow, if_pos (by omega), if_pos (by omega), coeff_one_sub_mul, if_pos (by omega),
      Nat.add_sub_cancel_left]
  simp only [Update.apply_subtract, Vector.getElem_set]
  by_cases hplace : s + d = k
  · rw [if_pos hplace, if_neg (by omega), hnew, hplace]
  · rw [if_neg hplace, hrow]
    exact if_congr (by omega) rfl rfl

/-- The place that is read, `s` below, has been divided already. -/
theorem PartlyMultiplied.add (hs : 0 < s) (h : s + d < size) (hrow : PartlyMultiplied s d p row) :
    PartlyMultiplied s (d + 1) p ((Update.shifted .add s d h).apply row) := by
  intro k hk
  have hnew : row[s + d] + row[d] = p.coeff (s + d) := by
    rw [hrow, hrow, if_neg (by omega), if_pos (by omega), coeff_one_sub_mul, if_pos (by omega),
      Nat.add_sub_cancel_left, sub_add_cancel]
  simp only [Update.apply_add, Vector.getElem_set]
  by_cases hplace : s + d = k
  · rw [if_pos hplace, if_pos (by omega), hnew, hplace]
  · rw [if_neg hplace, hrow]
    exact if_congr (by omega) rfl rfl

/-! ### One pass -/

/-- **A multiplication** goes from the polynomial to the product. -/
theorem PartlyMultiplied.throughout_descending (h : t ≤ size - s)
    (hrow : PartlyMultiplied s t p row) :
    Throughout (fun row => ∃ d, PartlyMultiplied s d p row) (descending s t h) row ∧
      PartlyMultiplied s 0 p (run (descending s t h) row) := by
  -- the updates that are left after the first one are a pass of their own, from another table
  induction t generalizing row with
  | zero => exact ⟨throughout_nil.2 ⟨0, hrow⟩, hrow⟩
  | succ t ih =>
    have hrest := ih (by omega) (hrow.subtract (by omega))
    exact ⟨throughout_cons.2 ⟨⟨t + 1, hrow⟩, hrest.1⟩, hrest.2⟩

/-- **A division** goes from the product to the polynomial. -/
theorem PartlyMultiplied.throughout_ascending (hs : 0 < s) (h : t ≤ size - s)
    (hrow : PartlyMultiplied s 0 p row) :
    Throughout (fun row => ∃ d, PartlyMultiplied s d p row) (ascending s t h) row ∧
      PartlyMultiplied s t p (run (ascending s t h) row) := by
  induction t with
  | zero => exact ⟨throughout_nil.2 ⟨0, hrow⟩, hrow⟩
  | succ t ih =>
    obtain ⟨hbefore, hlast⟩ := ih (by omega)
    have hnext := hlast.add hs (by omega)
    rw [ascending, run_append]
    refine ⟨throughout_append.2 ⟨hbefore, throughout_cons.2 ⟨⟨t, hlast⟩, ?_⟩⟩, hnext⟩
    exact throughout_nil.2 ⟨t + 1, hnext⟩

/-! ### One factor after the other -/

theorem holds_one (size : ℕ) : Holds (one size) 1 := by
  intro k hk
  rw [one, Vector.getElem_ofFn, coeff_one]

theorem Holds.throughout_multiplication (hrow : Holds row (box m n))
    (h : ∀ k, (count m n k : ℤ) ≤ b) :
    Throughout (Bounded b) (multiplication (n + (m + 1))) row ∧
      Holds (run (multiplication (n + (m + 1))) row) ((1 - X ^ (m + 1)) * box (m + 1) n) := by
  obtain ⟨hpass, hlast⟩ := (partlyMultiplied_all.2 hrow).throughout_descending le_rfl
  rw [one_sub_mul_box_succ, add_assoc]
  refine ⟨hpass.mono ?_, partlyMultiplied_zero.1 hlast⟩
  rintro row ⟨d, hpart⟩
  exact hpart.bounded (abs_coeff_box_le h) (abs_coeff_one_sub_mul_box_le h _)

/-- The product that a multiplication leaves in the table is what the division after it expects
there. -/
theorem Holds.throughout_division (hrow : Holds row ((1 - X ^ (m + 1)) * box (m + 1) n))
    (h : ∀ k, (count (m + 1) n k : ℤ) ≤ b) :
    Throughout (Bounded b) (division (m + 1)) row ∧
      Holds (run (division (m + 1)) row) (box (m + 1) n) := by
  obtain ⟨hpass, hlast⟩ :=
    (partlyMultiplied_zero.2 hrow).throughout_ascending m.succ_pos le_rfl
  refine ⟨hpass.mono ?_, partlyMultiplied_all.1 hlast⟩
  rintro row ⟨d, hpart⟩
  exact hpart.bounded (abs_coeff_box_le h) (abs_coeff_one_sub_mul_box_le h _)

/-- **Every moment over the integers.** No number exceeds a bound of the numbers of arrangements,
and in the end these are in the table. -/
theorem throughout_updates (h : ∀ k, (count m n k : ℤ) ≤ b) :
    Throughout (Bounded b) (updates n m) (one size) ∧
      Holds (run (updates n m) (one size)) (box m n) := by
  induction m with
  | zero =>
    have hone : Holds (one size) (box 0 n) := box_zero n ▸ holds_one size
    exact ⟨throughout_nil.2 (hone.bounded (abs_coeff_box_le h)), hone⟩
  | succ m ih =>
    have hold : ∀ k, (count m n k : ℤ) ≤ b := fun k =>
      (Int.ofNat_le.2 (count_mono m.le_succ k)).trans (h k)
    obtain ⟨hbefore, hbox⟩ := ih hold
    obtain ⟨hdown, hproduct⟩ := hbox.throughout_multiplication hold
    obtain ⟨hup, hnext⟩ := hproduct.throughout_division h
    rw [updates, run_append, run_append, throughout_append, throughout_append]
    exact ⟨⟨hbefore, hdown, hup⟩, hnext⟩

end

/-! ### Tables of doubles -/

section

variable {size : ℕ} {row : Vector ℤ size} {us : List (Update size)}

/-- An update in doubles does not round: the two doubles that it reads are finite, and what it
writes stands for exactly the difference or the sum of their numbers. -/
def Update.IsExact (u : Update size) (row : Vector Float size) : Prop :=
  (u.own row).isFinite = true ∧ (u.other row).isFinite = true ∧
    HasValue (u.result row) (u.operation.eval (toReal (u.own row)) (toReal (u.other row)))

theorem Operation.eval_ofInt (o : Operation) {a b : ℤ} (ha : IsSmall a) (hb : IsSmall b)
    (hab : IsSmall (o.eval a b)) :
    o.eval (Float.ofInt a) (Float.ofInt b) = Float.ofInt (o.eval a b) := by
  cases o with
  | subtract => exact ofInt_sub ha hb hab
  | add => exact ofInt_add ha hb hab

theorem Operation.cast_eval (o : Operation) (a b : ℤ) :
    ((o.eval a b : ℤ) : ℝ) = o.eval (a : ℝ) b := by
  cases o with
  | subtract => exact Int.cast_sub a b
  | add => exact Int.cast_add a b

theorem Update.isSmall_own (u : Update size) (hrow : Bounded (2 ^ 53) row) :
    IsSmall (u.own row) := hrow u.target u.target.isLt

theorem Update.isSmall_other (u : Update size) (hrow : Bounded (2 ^ 53) row) :
    IsSmall (u.other row) := hrow u.source u.source.isLt

theorem Update.isSmall_result {u : Update size} (hnext : Bounded (2 ^ 53) (u.apply row)) :
    IsSmall (u.result row) := by
  have h := hnext u.target u.target.isLt
  rwa [Update.apply, Vector.getElem_set_self] at h

theorem Update.result_map_ofInt {u : Update size} (hrow : Bounded (2 ^ 53) row)
    (hnext : Bounded (2 ^ 53) (u.apply row)) :
    u.result (row.map Float.ofInt) = Float.ofInt (u.result row) := by
  rw [Update.result, own_map, other_map]
  exact u.operation.eval_ofInt (u.isSmall_own hrow) (u.isSmall_other hrow) (isSmall_result hnext)

theorem Update.apply_map_ofInt {u : Update size} (hrow : Bounded (2 ^ 53) row)
    (hnext : Bounded (2 ^ 53) (u.apply row)) :
    u.apply (row.map Float.ofInt) = (u.apply row).map Float.ofInt := by
  rw [Update.apply, Update.apply, result_map_ofInt hrow hnext, Vector.map_set]

theorem Update.isExact_map_ofInt {u : Update size} (hrow : Bounded (2 ^ 53) row)
    (hnext : Bounded (2 ^ 53) (u.apply row)) : u.IsExact (row.map Float.ofInt) := by
  have hown := hasValue_ofInt (u.isSmall_own hrow)
  have hother := hasValue_ofInt (u.isSmall_other hrow)
  rw [Update.IsExact, result_map_ofInt hrow hnext, own_map, other_map]
  refine ⟨hown.isFinite, hother.isFinite, ?_⟩
  rw [hown.toReal_eq, hother.toReal_eq, ← Operation.cast_eval]
  exact hasValue_ofInt (isSmall_result hnext)

/-- **Doubles follow small integers.** -/
theorem run_map_ofInt (h : Throughout (Bounded (2 ^ 53)) us row) :
    run us (row.map Float.ofInt) = (run us row).map Float.ofInt := by
  induction us generalizing row with
  | nil => rfl
  | cons u us ih =>
    obtain ⟨hrow, hrest⟩ := throughout_cons.1 h
    have hnext := hrest [] List.nil_prefix
    rw [run_cons, run_cons, Update.apply_map_ofInt hrow hnext, ih hrest]

/-- **No update rounds** on the way. -/
theorem isExact_of_throughout (h : Throughout (Bounded (2 ^ 53)) us row) {before after u}
    (hus : us = before ++ u :: after) : u.IsExact (run before (row.map Float.ofInt)) := by
  subst hus
  obtain ⟨hbefore, hfrom⟩ := throughout_append.1 h
  obtain ⟨hrow, hafter⟩ := throughout_cons.1 hfrom
  rw [run_map_ofInt hbefore]
  exact Update.isExact_map_ofInt hrow (hafter [] List.nil_prefix)

/-! ### The coefficients in doubles -/

/-- The doubles in a table are the coefficients of a polynomial, as far as the table goes. -/
def Tabulates (v : Vector Float size) (p : ℤ[X]) : Prop :=
  ∀ k (hk : k < size), v[k] = Float.ofInt (p.coeff k)

theorem Holds.tabulates {p : ℤ[X]} (h : Holds row p) : Tabulates (row.map Float.ofInt) p := by
  intro k hk
  rw [Vector.getElem_map, h k hk]

theorem map_ofInt_one (size : ℕ) : (one size : Vector ℤ size).map Float.ofInt = one size := by
  ext k hk
  rw [Vector.getElem_map, one, one, Vector.getElem_ofFn, Vector.getElem_ofFn]
  split_ifs <;> rfl

variable {m n : ℕ}

/-- After `m` factors the table holds a Gaussian binomial. -/
theorem tabulates_partialCoefficients (m' : ℕ) (h : ∀ k, count m n k ≤ 2 ^ 53) :
    Tabulates (partialCoefficients Float m' n m) (box m n) := by
  obtain ⟨hall, hbox⟩ := throughout_updates (b := 2 ^ 53) fun k => by exact_mod_cast h k
  rw [← run_updates, ← map_ofInt_one, run_map_ofInt hall]
  exact hbox.tabulates

/-- In the middle of the next factor it holds a product, for which only the numbers before the
factor have to be small. -/
theorem tabulates_mulOneSub (m' : ℕ) (h : ∀ k, count m n k ≤ 2 ^ 53) :
    Tabulates (mulOneSub (n + (m + 1)) (partialCoefficients Float m' n m))
      ((1 - X ^ (m + 1)) * box (m + 1) n) := by
  have hsmall : ∀ k, (count m n k : ℤ) ≤ 2 ^ 53 := fun k => by exact_mod_cast h k
  obtain ⟨hall, hbox⟩ := throughout_updates hsmall
  obtain ⟨hdown, hproduct⟩ := hbox.throughout_multiplication hsmall
  rw [← run_updates, ← run_multiplication, ← run_append, ← map_ofInt_one,
    run_map_ofInt (throughout_append.2 ⟨hall, hdown⟩), run_append]
  exact hproduct.tabulates

end

end Gaussian

end Campaign.RankSum
