import Campaign.Json.Number
import Campaign.Proofs.Decimal.Layout
import Mathlib.Data.List.TakeWhile

/-!
# Numbers in front of other text

After a printed value stands a comma, a new line, or nothing (`Ends`). Each reader of a part of a
number looks at most one character ahead, and none of them takes such a character; so a number that
is a whole text is also split off in front of whatever ends a value.

## Main statements

* `split?_ends`: a number in front of other text;
* `ofText?_toDigits`: a natural number.
-/

namespace Campaign.Json

/-- What may follow a value: more items, the line of a closing bracket, or nothing. -/
def Ends (s : List Char) : Prop := ∀ c ∈ s.head?, c = ',' ∨ c = '\n'

theorem ends_nil : Ends [] := by simp [Ends]

theorem ends_cons {c : Char} (h : c = ',' ∨ c = '\n') (s : List Char) : Ends (c :: s) := by
  simpa [Ends] using h

namespace Number

/-! ### Parts of a number -/

section

variable {s t rest : List Char}

theorem splitDigits_ends (h : Ends rest) (s : List Char) :
    Decimal.splitDigits (s ++ rest) =
      ((Decimal.splitDigits s).1, (Decimal.splitDigits s).2 ++ rest) := by
  induction s with
  | nil =>
    cases rest with
    | nil => rfl
    | cons c rest =>
      have hc : c.isDigit = false := by
        rcases h c rfl with rfl | rfl <;> rfl
      simp [Decimal.splitDigits, hc]
  | cons c s ih =>
    simp only [Decimal.splitDigits, Prod.mk.injEq] at ih
    cases hc : c.isDigit <;> simp [Decimal.splitDigits, hc, ih.1, ih.2]

theorem splitWhole?_ends (h : Ends rest) {whole : List Char}
    (hs : splitWhole? s = some (whole, t)) : splitWhole? (s ++ rest) = some (whole, t ++ rest) := by
  simp only [splitWhole?, splitDigits_ends h] at hs ⊢
  split at hs <;> simp_all

theorem splitFraction?_ends (h : Ends rest) {fraction : List Char}
    (hs : splitFraction? s = some (fraction, t)) :
    splitFraction? (s ++ rest) = some (fraction, t ++ rest) := by
  unfold splitFraction? at hs
  split at hs
  · rename_i s
    simp only [List.cons_append, splitFraction?, splitDigits_ends h] at hs ⊢
    by_cases hdigits : (Decimal.splitDigits s).1 = []
    · simp [hdigits] at hs
    · have hsplit : Decimal.splitDigits s = (fraction, t) := by simpa [hdigits] using hs
      rw [hsplit] at hdigits ⊢
      simp [hdigits]
  · rename_i hpoint
    obtain ⟨rfl, rfl⟩ : [] = fraction ∧ s = t := by simpa using hs
    have hrest : ∀ u, s ++ rest ≠ '.' :: u := by
      intro u hu
      cases s with
      | nil =>
        subst hu
        rcases h '.' rfl with h | h <;> exact absurd h (by decide)
      | cons c s => exact hpoint s (by rw [(List.cons.inj hu).1])
    rw [splitFraction?.eq_2 _ hrest]

theorem splitExponentSign_append_right {c : Char} (hc : c ∈ s.head?) (rest : List Char) :
    splitExponentSign (s ++ rest) =
      ((splitExponentSign s).1, (splitExponentSign s).2 ++ rest) := by
  obtain ⟨s, rfl⟩ : ∃ t, s = c :: t := by
    cases s with
    | nil => simp at hc
    | cons d s => exact ⟨s, by simp_all⟩
  unfold splitExponentSign
  split <;> simp_all

theorem splitExponent?_ends (h : Ends rest) {e : List Char}
    (hs : splitExponent? s = some (e, t)) : splitExponent? (s ++ rest) = some (e, t ++ rest) := by
  cases s with
  | nil =>
    obtain ⟨rfl, rfl⟩ : [] = e ∧ [] = t := by simpa [splitExponent?] using hs
    cases rest with
    | nil => rfl
    | cons c rest =>
      have hc : ¬ (c = 'e' ∨ c = 'E') := by
        rcases h c rfl with rfl | rfl <;> decide
      simp [splitExponent?, hc]
  | cons mark s =>
    simp only [splitExponent?, List.cons_append] at hs ⊢
    by_cases hmark : mark = 'e' ∨ mark = 'E'
    · rw [if_pos hmark] at hs ⊢
      -- there are digits after the sign, so the sign is not looked for in what follows
      obtain ⟨c, hc⟩ : ∃ c, c ∈ s.head? := by
        cases s with
        | nil => simp [splitExponentSign, Decimal.splitDigits] at hs
        | cons c s => exact ⟨c, rfl⟩
      simp only [splitExponentSign_append_right hc, splitDigits_ends h]
      split at hs <;> simp_all
    · rw [if_neg hmark] at hs ⊢
      obtain ⟨rfl, rfl⟩ : [] = e ∧ mark :: s = t := by simpa using hs
      rfl

/-! ### Whole numbers of the grammar -/

/-- A number without its sign. -/
def splitUnsigned? (negative : Bool) (s : List Char) : Option (Number × List Char) := do
  let (whole, s) ← splitWhole? s
  let (fraction, s) ← splitFraction? s
  let (exponent, s) ← splitExponent? s
  return (⟨negative, whole, fraction, exponent⟩, s)

theorem split?_cons {c : Char} (hc : c ≠ '-') (s : List Char) :
    split? (c :: s) = splitUnsigned? false (c :: s) := by
  unfold split?
  split
  rename_i hsign
  split at hsign
  · rename_i hs
    exact absurd (List.cons.inj hs).1 hc
  · obtain ⟨rfl, rfl⟩ := Prod.mk.inj hsign
    rfl

theorem splitUnsigned?_ends (h : Ends rest) {negative : Bool} {n : Number}
    (hs : splitUnsigned? negative s = some (n, t)) :
    splitUnsigned? negative (s ++ rest) = some (n, t ++ rest) := by
  simp only [splitUnsigned?, Option.bind_eq_bind, Option.bind_eq_some_iff] at hs ⊢
  obtain ⟨⟨whole, s₁⟩, h₁, ⟨fraction, s₂⟩, h₂, ⟨e, s₃⟩, h₃, h₄⟩ := hs
  cases h₄
  exact ⟨_, splitWhole?_ends h h₁, _, splitFraction?_ends h h₂, _, splitExponent?_ends h h₃, rfl⟩

/-- A number starts with a minus or with a digit. -/
theorem exists_cons_of_split? {n : Number} (hs : split? s = some (n, t)) :
    ∃ c u, s = c :: u ∧ (c = '-' ∨ c.isDigit = true) := by
  cases s with
  | nil => simp [split?, splitWhole?, Decimal.splitDigits] at hs
  | cons c s =>
    refine ⟨c, s, rfl, or_iff_not_imp_left.2 fun hc => ?_⟩
    by_contra hdigit
    rw [split?_cons hc] at hs
    simp [splitUnsigned?, splitWhole?, Decimal.splitDigits, hdigit] at hs

/-- **A number in front of what ends a value.** -/
theorem split?_ends (h : Ends rest) {n : Number} (hs : split? s = some (n, t)) :
    split? (s ++ rest) = some (n, t ++ rest) := by
  obtain ⟨c, s, rfl, -⟩ := exists_cons_of_split? hs
  rw [List.cons_append]
  by_cases hc : c = '-'
  · subst hc
    exact splitUnsigned?_ends h hs
  · rw [split?_cons hc] at hs ⊢
    exact splitUnsigned?_ends h hs

end

/-- A whole text that is a number, in front of what ends a value. -/
theorem split?_of_ofText? {s rest : List Char} {n : Number} (hs : ofText? s = some n)
    (h : Ends rest) : split? (s ++ rest) = some (n, rest) ∧ n.text = s := by
  unfold ofText? at hs
  split at hs
  · rename_i hsplit
    cases hs
    exact ⟨split?_ends h hsplit, by simpa using split?_append hsplit⟩
  · cases hs

/-! ### Natural numbers -/

/-- **A natural number.** -/
theorem ofText?_toDigits (n : ℕ) :
    ofText? (Nat.toDigits 10 n) = some ⟨false, Nat.toDigits 10 n, [], []⟩ := by
  obtain ⟨digits, leading⟩ := Decimal.isWhole_toDigits n
  obtain ⟨c, s, hc⟩ := (Decimal.isWhole_toDigits n).exists_cons
  have hminus : c ≠ '-' := by
    rintro rfl
    exact absurd (digits '-' (by simp [hc])) (by decide)
  have hsplit : Decimal.splitDigits (Nat.toDigits 10 n) = (Nat.toDigits 10 n, []) := by
    rw [Decimal.splitDigits, List.takeWhile_eq_self_iff.2 digits,
      List.dropWhile_eq_nil_iff.2 digits]
  have hwhole : splitWhole? (Nat.toDigits 10 n) = some (Nat.toDigits 10 n, []) := by
    rw [splitWhole?, hsplit]
    rcases leading with hzero | ⟨-, hhead⟩
    · rw [hzero]
      rfl
    · rw [hc] at hhead ⊢
      have hzero : c ≠ '0' := by simpa using hhead
      simp [hzero]
  have hread : split? (Nat.toDigits 10 n) = some (⟨false, Nat.toDigits 10 n, [], []⟩, []) := by
    rw [hc, split?_cons hminus, ← hc, splitUnsigned?, hwhole]
    rfl
  rw [ofText?, hread]

end Number

end Campaign.Json
