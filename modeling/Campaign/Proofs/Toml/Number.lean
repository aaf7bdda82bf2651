import Campaign.Proofs.Decimal.Shortest
import Campaign.Toml.Number
import Campaign.Toml.Time

/-!
# Numbers read back

What follows a number is a character that cannot belong to it (`Ends`), so its reader stops there.
No written number is taken for a time, because the character after its first digits is neither a
dash nor a colon.

## Main statements

* `splitFloat?_writeFloat`: a written double reads as the double of its shortest decimal;
* `splitInteger?_toDigits`: a written natural number;
* `Time.split?_digits`: digits before another character than a dash or a colon start no time.
-/

namespace Campaign.Toml

open Decimal

/-- What may follow a value: more items, the end of an array, or the end of the line. -/
def Ends (s : List Char) : Prop := ∃ c t, s = c :: t ∧ c ∈ [',', ']', '\n']

/-- Whatever ends a value stops the readers of digits, of points, of times and of bases. -/
theorem Ends.stops {s : List Char} (h : Ends s) :
    ∃ c t, s = c :: t ∧ c.isDigit = false ∧ c ∉ ['_', '.', '-', ':', 'x', 'o', 'b'] := by
  obtain ⟨c, t, rfl, hc⟩ := h
  refine ⟨c, t, rfl, ?_⟩
  simp only [List.mem_cons, List.not_mem_nil, or_false] at hc
  rcases hc with rfl | rfl | rfl <;> exact ⟨rfl, by decide⟩

/-! ### Times -/

namespace Time

theorem splitField?_digits {width low high : Nat} {ds : List Char} {c : Char} {s : List Char}
    (hd : ∀ d ∈ ds, d.isDigit = true) (hc : c.isDigit = false) {n : Nat} {t : List Char}
    (h : splitField? width low high (ds ++ c :: s) = some (n, t)) :
    ∃ es, (∀ d ∈ es, d.isDigit = true) ∧ t = es ++ c :: s := by
  simp only [splitField?, Option.bind_eq_bind, Option.bind_eq_some_iff, Option.guard_eq_some'] at h
  obtain ⟨-, ⟨-, all⟩, -, -, h⟩ := h
  obtain rfl : (ds ++ c :: s).drop width = t := by simpa using congrArg (Option.map Prod.snd) h
  -- the field ends before the first character that is no digit
  have fits : width ≤ ds.length := by
    by_contra hlt
    have mem : c ∈ (ds ++ c :: s).take width := by
      rw [List.take_append, List.mem_append]
      exact .inr (List.mem_take_iff_getElem.2 ⟨0, by simp; omega, rfl⟩)
    simp [List.all_eq_true.1 all c mem] at hc
  exact ⟨ds.drop width, fun d hd' => hd d (List.mem_of_mem_drop hd'),
    by rw [List.drop_append_of_le_length fits]⟩

/-- A mark that is no digit does not follow digits before another character. -/
theorem splitMark?_digits {mark : Char} {ds : List Char} {c : Char} {s : List Char}
    (hd : ∀ d ∈ ds, d.isDigit = true) (hm : mark.isDigit = false) (hc : c ≠ mark) :
    splitMark? mark (ds ++ c :: s) = none := by
  cases ds with
  | nil => simp [splitMark?, hc]
  | cons d ds =>
    have hne : d ≠ mark := by rintro rfl; simp [hd d List.mem_cons_self] at hm
    simp [splitMark?, hne]

theorem split?_digits {ds : List Char} {c : Char} {s : List Char}
    (hd : ∀ d ∈ ds, d.isDigit = true) (hc : c.isDigit = false) (hdash : c ≠ '-')
    (hcolon : c ≠ ':') : split? (ds ++ c :: s) = none := by
  have date : splitDate? (ds ++ c :: s) = none := by
    unfold splitDate?
    cases hf : splitField? 4 0 9999 (ds ++ c :: s) with
    | none => rfl
    | some p =>
      obtain ⟨es, he, ht⟩ := splitField?_digits hd hc hf
      simp [ht, splitMark?_digits he (by decide) hdash]
  have clock : splitClock? (ds ++ c :: s) = none := by
    unfold splitClock?
    cases hf : splitField? 2 0 23 (ds ++ c :: s) with
    | none => rfl
    | some p =>
      obtain ⟨es, he, ht⟩ := splitField?_digits hd hc hf
      simp [ht, splitMark?_digits he (by decide) hcolon]
  rw [split?, date, clock]

/-- No time starts with a minus. -/
theorem split?_minus (s : List Char) : split? ('-' :: s) = none := by
  have field (width low high : Nat) : splitField? (width + 1) low high ('-' :: s) = none := by
    simp only [splitField?, Option.bind_eq_bind, Option.bind_eq_none_iff, Option.guard_eq_some']
    rintro - ⟨-, all⟩
    exact absurd all (by simp)
  rw [split?, splitDate?, splitClock?, field, field]
  rfl

end Time

/-! ### Numbers -/

namespace Number

theorem grouped_digits {ds : List Char} {c : Char} {s : List Char}
    (hd : ∀ d ∈ ds, d.isDigit = true) (hc : c.isDigit = false) (hu : c ≠ '_') :
    grouped Char.isDigit (ds ++ c :: s) = (ds, c :: s) := by
  induction ds with
  | nil =>
    rw [List.nil_append, grouped.eq_3 _ _ _ fun _ _ h => absurd h hu, hc]
    rfl
  | cons d ds ih =>
    have digit := hd d List.mem_cons_self
    have hne : d ≠ '_' := by rintro rfl; revert digit; decide
    rw [List.cons_append, grouped.eq_3 _ _ _ fun _ _ h => absurd h hne, digit,
      ih fun e he => hd e (List.mem_cons_of_mem d he)]
    rfl

theorem digits?_digits {ds : List Char} {c : Char} {s : List Char} (hn : ds ≠ [])
    (hd : ∀ d ∈ ds, d.isDigit = true) (hc : c.isDigit = false) (hu : c ≠ '_') :
    digits? Char.isDigit (ds ++ c :: s) = some (ds, c :: s) := by
  obtain ⟨d, ds, rfl⟩ := List.exists_cons_of_ne_nil hn
  rw [digits?, if_pos (by simpa using hd d List.mem_cons_self), grouped_digits hd hc hu]

theorem splitWhole?_whole {whole : List Char} {c : Char} {s : List Char} (hw : IsWhole whole)
    (hc : c.isDigit = false) (hu : c ≠ '_') :
    splitWhole? (whole ++ c :: s) = some (whole, c :: s) := by
  rcases hw.leading with rfl | ⟨hn, hz⟩
  · rfl
  · rw [splitWhole?.eq_2, digits?_digits hn hw.digits hc hu]
    obtain ⟨d, ds, rfl⟩ := List.exists_cons_of_ne_nil hn
    rintro t e
    exact hz (congrArg some (List.cons.inj e).1)

theorem splitExponent?_ends {s : List Char} (h : Ends s) : splitExponent? s = none := by
  obtain ⟨c, t, rfl, hc⟩ := h
  simp only [List.mem_cons, List.not_mem_nil, or_false] at hc
  rcases hc with rfl | rfl | rfl <;> rfl

/-! ### Doubles -/

theorem splitDecimal?_point {whole fraction s : List Char} (hw : IsWhole whole)
    (hn : fraction ≠ []) (hf : ∀ c ∈ fraction, c.isDigit = true) (hs : Ends s) :
    splitDecimal? (whole ++ '.' :: (fraction ++ s)) =
      some (⟨Decimal.ofDigits (whole ++ fraction), -(fraction.length : Int)⟩, s) := by
  have exponent := splitExponent?_ends hs
  obtain ⟨c, t, rfl, digit, hc⟩ := hs.stops
  simp only [List.mem_cons, not_or] at hc
  rw [splitDecimal?, splitWhole?_whole hw (by decide) (by decide)]
  simp [splitFraction?, digits?_digits hn hf digit hc.1, exponent]

/-- A number without a point is no double. -/
theorem splitDecimal?_whole {whole s : List Char} (hw : IsWhole whole) (hs : Ends s) :
    splitDecimal? (whole ++ s) = none := by
  have exponent := splitExponent?_ends hs
  obtain ⟨c, t, rfl, digit, hc⟩ := hs.stops
  simp only [List.mem_cons, not_or] at hc
  rw [splitDecimal?, splitWhole?_whole hw digit hc.1]
  simp [splitFraction?.eq_2 _ fun _ e => hc.2.1 (List.cons.inj e).1, exponent]

theorem splitSign_whole (negative : Bool) {whole : List Char} (hw : IsWhole whole)
    (s : List Char) :
    splitSign ((if negative then ['-'] else []) ++ (whole ++ s)) = (negative, whole ++ s) := by
  obtain ⟨d, ds, rfl⟩ := hw.exists_cons
  exact splitSign_digits negative (hw.digits d List.mem_cons_self) (ds ++ s)

/-- Digits after a sign are none of the words, so they are read as a decimal. -/
theorem splitFloat?_whole (negative : Bool) {whole : List Char} (hw : IsWhole whole)
    (s : List Char) :
    splitFloat? ((if negative then ['-'] else []) ++ (whole ++ s)) = (do
      let (d, rest) ← splitDecimal? (whole ++ s)
      let x := d.toFloat negative
      if x.isInf && !negative then none else some (x, rest)) := by
  rw [splitFloat?, splitSign_whole negative hw]
  obtain ⟨d, ds, rfl⟩ := hw.exists_cons
  have digit := hw.digits d List.mem_cons_self
  dsimp only [List.cons_append]
  split
  · rename_i e
    obtain rfl := (List.cons.inj e).1
    exact absurd digit (by decide)
  · rename_i e
    obtain rfl := (List.cons.inj e).1
    exact absurd digit (by decide)
  · rfl

section

variable {x : Float} {negative : Bool} {m : Nat} {q : Int}
  (hx : Binary64.value x = .finite negative m q)

include hx

/-- The text of a finite double: a minus for the negative ones, then digits around a point. -/
theorem exists_writeFloat :
    ∃ whole fraction,
      writeFloat x = (if negative then ['-'] else []) ++ (whole ++ '.' :: fraction) ∧
      IsWhole whole ∧ (∀ c ∈ fraction, c.isDigit = true) ∧ fraction ≠ [] ∧
      (⟨Decimal.ofDigits (whole ++ fraction), -(fraction.length : Int)⟩ : Decimal) =
        pointed (shortest m q .up) := by
  obtain ⟨whole, fraction, he, hw⟩ := positional_toDigits (coefficient_shortest hx .up)
  refine ⟨whole, fraction, ?_, hw⟩
  simp only [writeFloat, Style.render, hx, Style.magnitude, style, String.toList_ofList, he]

theorem splitFloat?_writeFloat {s : List Char} (hs : Ends s) :
    splitFloat? (writeFloat x ++ s) = some (x, s) := by
  obtain ⟨whole, fraction, he, hw, hd, hn, hv⟩ := exists_writeFloat hx
  have finite := Binary64.not_isInf_of_value hx
  rw [he, List.append_assoc, List.append_assoc, splitFloat?_whole negative hw, List.cons_append,
    splitDecimal?_point hw hn hd hs, hv]
  simp [toFloat_pointed_shortest hx, finite]

/-- A written double starts no time. -/
theorem timeSplit?_writeFloat (s : List Char) : Time.split? (writeFloat x ++ s) = none := by
  obtain ⟨whole, fraction, he, hw, -⟩ := exists_writeFloat hx
  cases negative with
  | true => rw [he]; exact Time.split?_minus _
  | false =>
    rw [he, if_neg (by decide), List.nil_append, List.append_assoc, List.cons_append]
    exact Time.split?_digits hw.digits (by decide) (by decide) (by decide)

end

/-! ### Natural numbers -/

theorem splitFloat?_toDigits (n : Nat) {s : List Char} (hs : Ends s) :
    splitFloat? (Nat.toDigits 10 n ++ s) = none := by
  have whole := isWhole_toDigits n
  have unsigned := splitFloat?_whole false whole s
  rw [splitDecimal?_whole whole hs] at unsigned
  exact unsigned

theorem timeSplit?_toDigits (n : Nat) {s : List Char} (hs : Ends s) :
    Time.split? (Nat.toDigits 10 n ++ s) = none := by
  obtain ⟨c, t, rfl, digit, hc⟩ := hs.stops
  simp only [List.mem_cons, not_or] at hc
  exact Time.split?_digits (isDigit_toDigits n) digit hc.2.2.1 hc.2.2.2.1

/-- A natural number is not written in another base: after a zero at its front it ends. -/
theorem splitUnbounded?_toDigits (n : Nat) {s : List Char} (hs : Ends s) :
    splitUnbounded? (Nat.toDigits 10 n ++ s) = some ((n : Int), s) := by
  have whole := isWhole_toDigits n
  obtain ⟨c, t, rfl, digit, hc⟩ := hs.stops
  simp only [List.mem_cons, not_or] at hc
  have decimal (d : Char) (hd : c ≠ d) (u : List Char) :
      Nat.toDigits 10 n ++ c :: t ≠ '0' :: d :: u := by
    rcases whole.leading with h | ⟨hn, hz⟩
    · simp [h, hd]
    · obtain ⟨e, es, he⟩ := List.exists_cons_of_ne_nil hn
      simp only [he, List.head?_cons] at hz
      simp only [he, List.cons_append]
      exact fun h => hz (congrArg some (List.cons.inj h).1)
  rw [splitUnbounded?.eq_4 _ (decimal 'x' hc.2.2.2.2.1) (decimal 'o' hc.2.2.2.2.2.1)
    (decimal 'b' hc.2.2.2.2.2.2.1)]
  have sign := splitSign_whole false whole (c :: t)
  rw [if_neg (by decide), List.nil_append] at sign
  simp [sign, splitWhole?_whole whole digit hc.1, ofDigits_toDigits]

theorem splitInteger?_toDigits {n : Nat} (hn : (n : Int) ≤ greatest) {s : List Char}
    (hs : Ends s) : splitInteger? (Nat.toDigits 10 n ++ s) = some ((n : Int), s) := by
  have nonneg : least ≤ (n : Int) := by unfold least; omega
  rw [splitInteger?, splitUnbounded?_toDigits n hs, Option.bind_eq_bind, Option.bind_some]
  exact Option.bind_eq_some_iff.2 ⟨(), (Option.guard_eq_some' ()).2 ⟨nonneg, hn⟩, rfl⟩

end Number

end Campaign.Toml
