import Campaign.Proofs.Binary64.Special
import Campaign.Proofs.Decimal.Shortest

/-!
# Written doubles are read back

What a style writes for a double is a text that reads as the same double: digits around a point,
digits without one, digits with an exponent, or a word. The decimal that is read need not be the one
that was written, but it is a decimal of the same value, and the double nearest to it is the same.

* `Style.IsLegible`: a style whose words for the values that are not finite are read as they.

## Main statements

* `magnitude?_positional`, `magnitude?_scientific`: a decimal in both layouts;
* `readFloat?_render`: a double in any legible style.
-/

namespace Campaign.Decimal

open Binary64

/-! ### Digits in front of other text -/

theorem splitDigits_digits {ds rest : List Char} (hd : ∀ c ∈ ds, c.isDigit = true)
    (hrest : ∀ c ∈ rest.head?, c.isDigit = false) : splitDigits (ds ++ rest) = (ds, rest) := by
  have hnone : rest.takeWhile Char.isDigit = [] ∧ rest.dropWhile Char.isDigit = rest := by
    cases rest with
    | nil => exact ⟨rfl, rfl⟩
    | cons c rest => simp [hrest c rfl]
  rw [splitDigits, List.takeWhile_append_of_pos hd, List.dropWhile_append_of_pos hd, hnone.1,
    hnone.2, List.append_nil]

/-- What reads as an exponent, if it is not empty, starts with its mark. -/
theorem head?_of_exponent? {rest : List Char} {e : ℤ} (h : exponent? rest = some e) :
    ∀ c ∈ rest.head?, c = 'e' ∨ c = 'E' := by
  cases rest with
  | nil => simp
  | cons c rest =>
    intro d hd
    obtain rfl : c = d := by simpa using hd
    by_contra hmark
    rw [exponent?, if_neg hmark] at h
    cases h

theorem exponent?_nil : exponent? [] = some 0 := rfl

theorem exponent?_toDigits (e : ℤ) (plusExponent : Bool) :
    exponent? ('e' :: (if e < 0 then ['-'] else if plusExponent then ['+'] else []) ++
      Nat.toDigits 10 e.natAbs) = some e := by
  obtain ⟨c, t, hc⟩ := (isWhole_toDigits e.natAbs).exists_cons
  have hdigits := isDigit_toDigits e.natAbs
  have hempty : (Nat.toDigits 10 e.natAbs).isEmpty = false := by rw [hc]; rfl
  have hall : (Nat.toDigits 10 e.natAbs).all Char.isDigit = true := List.all_eq_true.2 hdigits
  have hsign : splitSign ((if e < 0 then ['-'] else if plusExponent then ['+'] else []) ++
      Nat.toDigits 10 e.natAbs) = (decide (e < 0), Nat.toDigits 10 e.natAbs) := by
    rw [hc] at hdigits ⊢
    have hsigned := splitSign_digits (decide (e < 0)) (hdigits c List.mem_cons_self) t
    by_cases hneg : e < 0
    · simpa [hneg] using hsigned
    · cases plusExponent with
      | true => simp [hneg, splitSign]
      | false => simpa [hneg] using hsigned
  rw [List.cons_append, exponent?, if_pos (.inl rfl)]
  simp only [hsign, hempty, hall, ofDigits_toDigits, Bool.not_true, Bool.or_self, Bool.false_eq_true,
    if_false, decide_eq_true_eq, Option.some.injEq]
  split_ifs <;> omega

/-! ### Magnitudes -/

section

variable {whole fraction rest : List Char} {e : ℤ}

/-- Digits without a point, in front of an exponent. -/
theorem magnitude?_whole (hw : ∀ c ∈ whole, c.isDigit = true) (hn : whole ≠ [])
    (he : exponent? rest = some e) : magnitude? (whole ++ rest) = some ⟨ofDigits whole, e⟩ := by
  have hmark := head?_of_exponent? he
  have hsplit : splitDigits (whole ++ rest) = (whole, rest) := by
    refine splitDigits_digits hw fun c hc => ?_
    rcases hmark c hc with rfl | rfl <;> rfl
  have hpoint : ∀ t, rest ≠ '.' :: t := by
    rintro t rfl
    rcases hmark '.' rfl with h | h <;> exact absurd h (by decide)
  have hempty : whole.isEmpty = false := by simpa using hn
  unfold magnitude?
  simp only [hsplit]
  simp [hempty, he]

/-- Digits on both sides of a point, in front of an exponent. -/
theorem magnitude?_point (hw : ∀ c ∈ whole, c.isDigit = true) (hn : whole ≠ [])
    (hf : ∀ c ∈ fraction, c.isDigit = true) (he : exponent? rest = some e) :
    magnitude? (whole ++ '.' :: (fraction ++ rest)) =
      some ⟨ofDigits (whole ++ fraction), e - fraction.length⟩ := by
  have hmark := head?_of_exponent? he
  have hsplit : splitDigits (whole ++ '.' :: (fraction ++ rest)) =
      (whole, '.' :: (fraction ++ rest)) :=
    splitDigits_digits hw fun c hc => by
      obtain rfl : '.' = c := by simpa using hc
      rfl
  have hsplit' : splitDigits (fraction ++ rest) = (fraction, rest) := by
    refine splitDigits_digits hf fun c hc => ?_
    rcases hmark c hc with rfl | rfl <;> rfl
  have hempty : whole.isEmpty = false := by simpa using hn
  unfold magnitude?
  simp only [hsplit, hsplit']
  simp [hempty, he]

end

/-- Without a point only the whole numbers are written differently. -/
theorem positional_eq_of_fraction {digits : List Char} {place : ℤ}
    (h : place.toNat < digits.length) (keepsPoint : Bool) :
    positional digits place keepsPoint = positional digits place true := by
  unfold positional
  split_ifs <;> rfl

theorem positional_eq_of_whole {digits : List Char} {place : ℤ} (hn : digits ≠ [])
    (h : digits.length ≤ place.toNat) :
    positional digits place false = digits ++ List.replicate (place.toNat - digits.length) '0' := by
  have hlength := List.length_pos_iff.2 hn
  rw [positional, if_neg (by omega), if_neg (by omega), if_neg (by decide), List.append_nil]

theorem magnitude?_zeros (n k : ℕ) :
    magnitude? (Nat.toDigits 10 n ++ List.replicate k '0') = some ⟨n * 10 ^ k, 0⟩ := by
  have hdigits : ∀ c ∈ Nat.toDigits 10 n ++ List.replicate k '0', c.isDigit = true :=
    List.forall_mem_append.2 ⟨isDigit_toDigits n, fun c hc => isDigit_of_mem_zeros hc⟩
  have hread := magnitude?_whole hdigits
    (List.append_ne_nil_of_left_ne_nil Nat.toDigits_ne_nil _) exponent?_nil
  rwa [List.append_nil, ofDigits_append, ofDigits_toDigits, ofDigits_zeros, List.length_replicate,
    Nat.add_zero] at hread

/-- **A decimal written without an exponent** reads as a decimal of the same value. -/
theorem magnitude?_positional {d : Decimal} (h : 0 < d.coefficient) (keepsPoint : Bool) :
    ∃ d', magnitude? (positional (Nat.toDigits 10 d.coefficient)
        ((Nat.toDigits 10 d.coefficient).length + d.exponent) keepsPoint) = some d' ∧
      d'.toReal = d.toReal := by
  have hlength : 0 < (Nat.toDigits 10 d.coefficient).length := Nat.length_toDigits_pos
  have hpointed : ∃ d', magnitude? (positional (Nat.toDigits 10 d.coefficient)
      ((Nat.toDigits 10 d.coefficient).length + d.exponent) true) = some d' ∧
        d'.toReal = d.toReal := by
    obtain ⟨whole, fraction, htext, hw, hf, -, hvalue⟩ := positional_toDigits (.inl h)
    obtain ⟨c, t, hc⟩ := hw.exists_cons
    have hread := magnitude?_point hw.digits (by simp [hc]) hf exponent?_nil
    rw [List.append_nil, zero_sub, hvalue] at hread
    exact ⟨_, htext ▸ hread, toReal_pointed d⟩
  cases keepsPoint with
  | true => exact hpointed
  | false =>
    obtain hfraction | hwhole := lt_or_ge
      ((Nat.toDigits 10 d.coefficient).length + d.exponent).toNat
      (Nat.toDigits 10 d.coefficient).length
    · rwa [positional_eq_of_fraction hfraction]
    · -- without its point a whole number ends in the zeros of its exponent
      obtain ⟨k, hk⟩ := Int.eq_ofNat_of_zero_le (a := d.exponent) (by omega)
      refine ⟨⟨d.coefficient * 10 ^ k, 0⟩, ?_, by simp [toReal, hk]⟩
      rw [positional_eq_of_whole Nat.toDigits_ne_nil hwhole, hk,
        show ((Nat.toDigits 10 d.coefficient).length + (k : ℤ)).toNat -
          (Nat.toDigits 10 d.coefficient).length = k by omega]
      exact magnitude?_zeros d.coefficient k

/-- **A decimal written with an exponent** reads as itself. -/
theorem magnitude?_scientific (d : Decimal) (plusExponent : Bool) :
    magnitude? (scientific (Nat.toDigits 10 d.coefficient)
      ((Nat.toDigits 10 d.coefficient).length + d.exponent - 1) plusExponent) = some d := by
  obtain ⟨c, t, hc⟩ := (isWhole_toDigits d.coefficient).exists_cons
  have hdigits := isDigit_toDigits d.coefficient
  have hvalue := ofDigits_toDigits d.coefficient
  rw [hc] at hdigits hvalue ⊢
  obtain ⟨hfirst, hothers⟩ := List.forall_mem_cons.1 hdigits
  have hsingle : ∀ b ∈ [c], b.isDigit = true := by simpa using hfirst
  have hexponent := exponent?_toDigits (((c :: t).length : ℤ) + d.exponent - 1) plusExponent
  cases t with
  | nil =>
    have hread := magnitude?_whole hsingle (List.cons_ne_nil c []) hexponent
    rw [hvalue] at hread
    simpa [scientific] using hread
  | cons b t =>
    have hread := magnitude?_point hsingle (List.cons_ne_nil c []) hothers hexponent
    have hlength : ((c :: b :: t).length : ℤ) + d.exponent - 1 - (b :: t).length = d.exponent := by
      rw [List.length_cons (a := c)]
      omega
    rw [show [c] ++ b :: t = c :: b :: t from rfl, hvalue, hlength] at hread
    simpa [scientific] using hread

/-! ### Styles -/

theorem magnitude_zero (s : Style) :
    s.magnitude ⟨0, 0⟩ = '0' :: if s.keepsPoint then ['.', '0'] else [] := by
  unfold Style.magnitude
  cases s.positional with
  | none => rfl
  | some bounds =>
    dsimp only
    rw [if_pos (Or.inl rfl)]
    rfl

/-- Whatever is written for a decimal reads as a decimal of the same value. -/
theorem magnitude?_magnitude (s : Style) {d : Decimal} (h : 0 < d.coefficient) :
    ∃ d', magnitude? (s.magnitude d) = some d' ∧ d'.toReal = d.toReal := by
  unfold Style.magnitude
  cases s.positional with
  | none => exact magnitude?_positional h s.keepsPoint
  | some bounds =>
    dsimp only
    split_ifs
    · exact magnitude?_positional h s.keepsPoint
    · exact ⟨d, magnitude?_scientific d s.plusExponent, rfl⟩

theorem toLower_of_isDigit {c : Char} (h : c.isDigit = true) : c.toLower = c := by
  have hle : c.val ≤ '9'.val := by
    simp only [Char.isDigit, Bool.and_eq_true, decide_eq_true_eq] at h
    exact h.2
  unfold Char.toLower
  rw [dif_neg]
  rintro ⟨hge, -⟩
  exact absurd (UInt32.le_trans hge hle) (by decide)

/-- After a sign a text that starts with a digit is none of the words. -/
theorem readFloat?_digits (negative : Bool) {c : Char} (hc : c.isDigit = true) (s : List Char) :
    readFloat? ((if negative then ['-'] else []) ++ c :: s) =
      (magnitude? (c :: s)).map (toFloat negative) := by
  have hword {b : Char} (hb : b.isDigit = false) (w : List Char) :
      String.ofList ((c :: s).map Char.toLower) ≠ String.ofList (b :: w) := by
    intro h
    rw [List.map_cons, toLower_of_isDigit hc, String.ofList_inj] at h
    rw [(List.cons.inj h).1, hb] at hc
    cases hc
  have hinf : String.ofList ((c :: s).map Char.toLower) ≠ "inf" := hword (by decide) ['n', 'f']
  have hinfinity : String.ofList ((c :: s).map Char.toLower) ≠ "infinity" :=
    hword (by decide) ['n', 'f', 'i', 'n', 'i', 't', 'y']
  have hnan : String.ofList ((c :: s).map Char.toLower) ≠ "nan" := hword (by decide) ['a', 'n']
  rw [readFloat?, splitSign_digits negative hc s]
  simp only [hinf, hinfinity, hnan, or_self, if_false]

/-- A style whose words for the values that are not finite are read as these values. -/
structure Style.IsLegible (s : Style) : Prop where
  signed : s.unsignedSpecials = false
  nan : readFloat? s.nan.toList = some (0 / 0)
  infinity : readFloat? s.infinity.toList = some (1 / 0)
  negativeInfinity : readFloat? ('-' :: s.infinity.toList) = some (-(1 / 0))

theorem isLegible_plain : Style.plain.IsLegible := ⟨rfl, by decide, by decide, by decide⟩

theorem isLegible_figure : Style.figure.IsLegible := ⟨rfl, by decide, by decide, by decide⟩

/-! ### Doubles -/

/-- A finite double, written in any style. -/
theorem readFloat?_magnitude (s : Style) {x : Float} {negative : Bool} {m : ℕ} {q : ℤ}
    (hx : value x = .finite negative m q) :
    readFloat? ((if negative then ['-'] else []) ++ s.magnitude (shortest m q s.tie)) = some x := by
  obtain ⟨c, t, hc, hdigit⟩ := exists_cons_magnitude s (shortest m q s.tie)
  rw [hc, readFloat?_digits negative hdigit, ← hc]
  rcases Nat.eq_zero_or_pos m with rfl | hm
  · have hread : magnitude? ('0' :: if s.keepsPoint then ['.', '0'] else []) =
        some ⟨0, if s.keepsPoint then -1 else 0⟩ := by
      cases s.keepsPoint <;> rfl
    rw [shortest, if_pos rfl, magnitude_zero, hread, Option.map_some, toFloat_zero hx]
  · have hcanonical := canonical_of_value hx hm
    obtain ⟨d, hd, hvalue⟩ := magnitude?_magnitude s (shortest_pos hcanonical s.tie)
    rw [hd, Option.map_some, toFloat_eq hx hm]
    rw [hvalue]
    exact nearest_of_rounds hcanonical (rounds_shortest hcanonical s.tie)

/-- **A written double** reads as the same double. -/
theorem readFloat?_render {s : Style} (hs : s.IsLegible) (x : Float) :
    readFloat? (s.render x).toList = some x := by
  unfold Style.render
  cases hx : value x with
  | nan => rw [eq_of_value_nan hx]; exact hs.nan
  | infinite negative =>
    rw [eq_of_value_infinite hx]
    cases negative with
    | false => exact hs.infinity
    | true => simpa [hs.signed] using hs.negativeInfinity
  | finite negative m q =>
    simp only [String.toList_ofList]
    exact readFloat?_magnitude s hx

end Campaign.Decimal
