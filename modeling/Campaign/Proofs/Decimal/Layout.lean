import Campaign.Decimal.Layout
import Campaign.Decimal.Read
import Mathlib.Data.List.Induction
import Mathlib.Tactic.Ring

/-!
# Digits around a point

The digits of a decimal, written with a point that has at least one digit on both sides, are the
digits of a decimal of the same value. It need not be the same decimal: a whole number ends in a
zero that its coefficient does not have (`pointed`).

## Main statements

* `positional_toDigits`: both parts of a written decimal, and the value of their digits.
* `exists_cons_magnitude`: the text of a decimal starts with a digit.
-/

namespace Campaign.Decimal

/-! ### Digit strings -/

theorem isDigit_toDigits (n : Nat) : ∀ c ∈ Nat.toDigits 10 n, c.isDigit = true :=
  fun _ hc => Nat.isDigit_of_mem_toDigits (by decide) (by decide) hc

/-- The digits of a positive number do not start with a zero. -/
theorem head?_toDigits {n : Nat} (h : 0 < n) : (Nat.toDigits 10 n).head? ≠ some '0' := by
  induction n using Nat.strongRecOn with
  | _ n ih =>
    rw [Nat.toDigits_eq_if (by decide)]
    split
    · have nonzero : ∀ k : Fin 10, 0 < k.1 → k.1.digitChar ≠ '0' := by decide
      simpa using nonzero ⟨n, ‹_›⟩ h
    · have first := ih (n / 10) (by omega) (by omega)
      obtain ⟨c, s, hc⟩ := List.exists_cons_of_ne_nil (Nat.toDigits_ne_nil (n := n / 10) (b := 10))
      simpa [hc] using first

theorem ofDigits_append (s t : List Char) :
    ofDigits (s ++ t) = ofDigits s * 10 ^ t.length + ofDigits t := by
  induction t using List.reverseRecOn with
  | nil => simp [ofDigits]
  | append_singleton t c ih =>
    rw [← List.append_assoc, ofDigits_append_singleton, ofDigits_append_singleton, ih,
      List.length_append, List.length_singleton, pow_succ]
    ring

theorem ofDigits_zeros (n : Nat) : ofDigits (List.replicate n '0') = 0 := by
  induction n with
  | zero => rfl
  | succ n ih => rw [List.replicate_succ', ofDigits_append_singleton, ih]; rfl

theorem isDigit_of_mem_zeros {n : Nat} {c : Char} (h : c ∈ List.replicate n '0') :
    c.isDigit = true := by
  rw [List.eq_of_mem_replicate h]; rfl

theorem splitSign_digits (negative : Bool) {c : Char} (hc : c.isDigit = true) (s : List Char) :
    splitSign ((if negative then ['-'] else []) ++ c :: s) = (negative, c :: s) := by
  cases negative with
  | true => rfl
  | false =>
    refine splitSign.eq_3 _ (fun _ e => ?_) fun _ e => ?_ <;>
      obtain rfl := (List.cons.inj e).1 <;> revert hc <;> decide

/-! ### The whole part -/

/-- Digits that stand in front of a point: a zero alone, or digits that start with another one. -/
structure IsWhole (s : List Char) : Prop where
  digits : ∀ c ∈ s, c.isDigit = true
  leading : s = ['0'] ∨ s ≠ [] ∧ s.head? ≠ some '0'

theorem IsWhole.exists_cons {s : List Char} (h : IsWhole s) : ∃ c t, s = c :: t := by
  rcases h.leading with rfl | ⟨hn, -⟩
  · exact ⟨_, _, rfl⟩
  · exact List.exists_cons_of_ne_nil hn

theorem isWhole_toDigits (n : Nat) : IsWhole (Nat.toDigits 10 n) where
  digits := isDigit_toDigits n
  leading := by
    rcases Nat.eq_zero_or_pos n with rfl | h
    · exact .inl (Nat.toDigits_zero 10)
    · exact .inr ⟨Nat.toDigits_ne_nil, head?_toDigits h⟩

/-- More digits after a number that is not zero. -/
theorem IsWhole.append {n : Nat} (h : 0 < n) {s : List Char} (hs : ∀ c ∈ s, c.isDigit = true) :
    IsWhole (Nat.toDigits 10 n ++ s) where
  digits c hc := (List.mem_append.1 hc).elim (isDigit_toDigits n c) (hs c)
  leading := by
    obtain ⟨c, t, hc⟩ := List.exists_cons_of_ne_nil (Nat.toDigits_ne_nil (n := n) (b := 10))
    exact .inr ⟨by simp [hc], by simpa [hc] using head?_toDigits h⟩

/-- The first digits of a number that is not zero. -/
theorem IsWhole.take {n k : Nat} (h : 0 < n) (hk : 0 < k) :
    IsWhole ((Nat.toDigits 10 n).take k) where
  digits c hc := isDigit_toDigits n c (List.mem_of_mem_take hc)
  leading := by
    obtain ⟨c, t, hc⟩ := List.exists_cons_of_ne_nil (Nat.toDigits_ne_nil (n := n) (b := 10))
    obtain ⟨k, rfl⟩ := Nat.exists_eq_succ_of_ne_zero hk.ne'
    exact .inr ⟨by simp [hc], by simpa [hc] using head?_toDigits h⟩

/-! ### The point -/

/-- A decimal of the same value with at least one digit after its point. -/
def pointed (d : Decimal) : Decimal :=
  if d.exponent < 0 then d else ⟨d.coefficient * 10 ^ (d.exponent.toNat + 1), -1⟩

theorem pointed_of_neg {d : Decimal} (h : d.exponent < 0) : pointed d = d := if_pos h

theorem pointed_of_nonneg {d : Decimal} (h : 0 ≤ d.exponent) :
    pointed d = ⟨d.coefficient * 10 ^ (d.exponent.toNat + 1), -1⟩ := if_neg (Int.not_lt.2 h)

theorem positional_toDigits {d : Decimal} (h : 0 < d.coefficient ∨ d.exponent = 0) :
    ∃ whole fraction, positional (Nat.toDigits 10 d.coefficient)
        ((Nat.toDigits 10 d.coefficient).length + d.exponent) true = whole ++ '.' :: fraction ∧
      IsWhole whole ∧ (∀ c ∈ fraction, c.isDigit = true) ∧ fraction ≠ [] ∧
      (⟨ofDigits (whole ++ fraction), -(fraction.length : Int)⟩ : Decimal) = pointed d := by
  obtain ⟨n, e⟩ := d
  dsimp only at h ⊢
  have value := ofDigits_toDigits n
  have long : 0 < (Nat.toDigits 10 n).length := Nat.length_toDigits_pos
  unfold positional
  split
  · -- all digits stand after the point
    rename_i hp
    refine ⟨['0'], List.replicate (-((Nat.toDigits 10 n).length + e)).toNat '0' ++
      Nat.toDigits 10 n, rfl, ⟨fun c hc => isDigit_of_mem_zeros (n := 1) hc, .inl rfl⟩,
      fun c hc => ?_, ?_, ?_⟩
    · exact (List.mem_append.1 hc).elim isDigit_of_mem_zeros (isDigit_toDigits n c)
    · exact List.append_ne_nil_of_right_ne_nil _ Nat.toDigits_ne_nil
    · rw [pointed_of_neg (show e < 0 by omega), ← List.append_assoc, ofDigits_append, value,
        show ['0'] = List.replicate 1 '0' from rfl, List.replicate_append_replicate,
        ofDigits_zeros, Nat.zero_mul, Nat.zero_add, List.length_append, List.length_replicate]
      congr 1
      omega
  · split
    · -- the point stands among the digits
      rename_i hp hl
      have negative : e < 0 := by omega
      refine ⟨_, _, rfl, .take (h.resolve_right (by omega)) (by omega),
        fun c hc => isDigit_toDigits n c (List.mem_of_mem_drop hc), ?_, ?_⟩
      · rw [ne_eq, List.drop_eq_nil_iff]; omega
      · rw [pointed_of_neg negative, List.take_append_drop, value, List.length_drop]
        congr 1
        omega
    · -- zeros fill the gap in front of the point
      rename_i hp hl
      have nonneg : 0 ≤ e := by omega
      have gap : ((Nat.toDigits 10 n).length + e).toNat - (Nat.toDigits 10 n).length = e.toNat := by
        omega
      refine ⟨Nat.toDigits 10 n ++ List.replicate e.toNat '0', ['0'], by rw [gap]; rfl, ?_,
        fun c hc => isDigit_of_mem_zeros (n := 1) hc, by decide, ?_⟩
      · rcases h with h | rfl
        · exact .append h fun c hc => isDigit_of_mem_zeros hc
        · simpa using isWhole_toDigits n
      · rw [pointed_of_nonneg nonneg, List.append_assoc, ofDigits_append, value,
          show ['0'] = List.replicate 1 '0' from rfl, List.replicate_append_replicate,
          ofDigits_zeros, List.length_replicate, List.length_replicate]
        rfl

/-! ### The first character -/

/-- What is written for a number starts with a digit, after the sign. -/
theorem exists_cons_magnitude (s : Style) (d : Decimal) :
    ∃ c t, s.magnitude d = c :: t ∧ c.isDigit = true := by
  obtain ⟨c, t, hc⟩ := (isWhole_toDigits d.coefficient).exists_cons
  have hdigit := isDigit_toDigits d.coefficient c (by simp [hc])
  have hpositional (place : ℤ) (keepsPoint : Bool) :
      ∃ c' t', positional (c :: t) place keepsPoint = c' :: t' ∧ c'.isDigit = true := by
    unfold positional
    by_cases hplace : place ≤ 0
    · rw [if_pos hplace]
      exact ⟨'0', _, rfl, rfl⟩
    rw [if_neg hplace]
    by_cases hlength : place.toNat < (c :: t).length
    · obtain ⟨k, hk⟩ : ∃ k, place.toNat = k + 1 := ⟨place.toNat - 1, by omega⟩
      rw [if_pos hlength, hk, List.take_succ_cons]
      exact ⟨c, _, rfl, hdigit⟩
    · rw [if_neg hlength]
      exact ⟨c, _, rfl, hdigit⟩
  unfold Style.magnitude
  simp only [hc]
  cases s.positional with
  | none => exact hpositional _ _
  | some bounds =>
    dsimp only
    split_ifs
    · exact hpositional _ _
    · exact ⟨c, _, rfl, hdigit⟩

end Campaign.Decimal
