import Campaign.Proofs.Decimal.Read

/-!
# Doubles written without an exponent

A style that bounds the place of the leading digit writes some numbers around a point and all
others with an exponent. Which of the two is used is decided on the shortest decimal of a double,
and not on the double. Both agree on a bound that is itself the shortest decimal of a double, as the
powers of ten between which figures are written around a point are.

* `IsPlain`: a text of digits around a point, with at least one digit on both sides;
* `IsBound`: a number that tells a double and its shortest decimal from smaller ones alike.

## Main statements

* `zpow_le_toReal_iff`: the place of the leading digit bounds a decimal;
* `isPlain_magnitude_iff`: what a style writes for a decimal;
* `IsBound.le_shortest_iff`: a double and its shortest decimal are above the same bounds;
* `isPlain_figure_iff`: figures.
-/

namespace Campaign.Decimal

open Binary64

/-! ### Digits around a point -/

/-- A sign at most, then a whole part without needless zeros, a point, and at least one digit. -/
def IsPlain (s : List Char) : Prop :=
  ∃ (negative : Bool) (whole fraction : List Char),
    s = (if negative then ['-'] else []) ++ (whole ++ '.' :: fraction) ∧ IsWhole whole ∧
      fraction ≠ [] ∧ ∀ c ∈ fraction, c.isDigit = true

/-- There is no exponent in such a text. -/
theorem IsPlain.not_mem {s : List Char} (h : IsPlain s) : 'e' ∉ s := by
  obtain ⟨negative, whole, fraction, rfl, hwhole, -, hfraction⟩ := h
  intro hmem
  have hnot : ¬ ('e' : Char).isDigit = true := by decide
  rcases List.mem_append.1 hmem with hsign | hmem
  · cases negative <;> simp at hsign
  rcases List.mem_append.1 hmem with hmem | hmem
  · exact hnot (hwhole.digits 'e' hmem)
  rcases List.mem_cons.1 hmem with heq | hmem
  · exact absurd heq (by decide)
  · exact hnot (hfraction 'e' hmem)

/-! ### The place of the leading digit -/

theorem lt_pow_length_toDigits (n : ℕ) : n < 10 ^ (Nat.toDigits 10 n).length :=
  (Nat.length_toDigits_le_iff (by decide) Nat.length_toDigits_pos).1 le_rfl

theorem pow_length_toDigits_le {n : ℕ} (h : 0 < n) :
    10 ^ ((Nat.toDigits 10 n).length - 1) ≤ n := by
  by_contra hlt
  have hlength : 0 < (Nat.toDigits 10 n).length := Nat.length_toDigits_pos
  rcases Nat.eq_zero_or_pos ((Nat.toDigits 10 n).length - 1) with hone | hmany
  · rw [hone] at hlt
    omega
  · have hle := (Nat.length_toDigits_le_iff (b := 10) (by decide) hmany).2 (not_le.1 hlt)
    omega

/-- **The place of the leading digit** says between which powers of ten a decimal lies. -/
theorem zpow_le_toReal_iff {d : Decimal} (h : 0 < d.coefficient) (k : ℤ) :
    (10 : ℝ) ^ k ≤ d.toReal ↔ k ≤ (Nat.toDigits 10 d.coefficient).length + d.exponent - 1 := by
  have hlow := pow_length_toDigits_le h
  have hhigh := lt_pow_length_toDigits d.coefficient
  have hlength : 0 < (Nat.toDigits 10 d.coefficient).length := Nat.length_toDigits_pos
  generalize (Nat.toDigits 10 d.coefficient).length = n at *
  have hten : (0 : ℝ) < 10 ^ d.exponent := by positivity
  have hscale (j : ℕ) : (10 : ℝ) ^ (j + d.exponent) = 10 ^ j * 10 ^ d.exponent := by
    rw [zpow_add₀ (by norm_num), zpow_natCast]
  constructor
  · intro hk
    have hlt : d.toReal < (10 : ℝ) ^ (n + d.exponent) := by
      rw [hscale, toReal]
      exact mul_lt_mul_of_pos_right (by exact_mod_cast hhigh) hten
    have := (zpow_lt_zpow_iff_right₀ (by norm_num)).1 (hk.trans_lt hlt)
    omega
  · intro hk
    calc (10 : ℝ) ^ k ≤ 10 ^ (((n - 1 : ℕ) : ℤ) + d.exponent) :=
          zpow_le_zpow_right₀ (by norm_num) (by omega)
      _ = ((10 ^ (n - 1) : ℕ) : ℝ) * 10 ^ d.exponent := by rw [hscale]; push_cast; rfl
      _ ≤ d.toReal := mul_le_mul_of_nonneg_right (by exact_mod_cast hlow) hten.le

/-! ### Written decimals -/

/-- **A decimal is written around a point** if it lies between the bounds of the style. -/
theorem isPlain_magnitude_iff {s : Style} {first below : ℤ} {d : Decimal} (negative : Bool)
    (hbounds : s.positional = some (first, below)) (hkeeps : s.keepsPoint = true)
    (hd : 0 < d.coefficient ∨ d.exponent = 0) :
    IsPlain ((if negative then ['-'] else []) ++ s.magnitude d) ↔
      d.coefficient = 0 ∨ (10 : ℝ) ^ first ≤ d.toReal ∧ d.toReal < 10 ^ below := by
  have hplaces : 0 < d.coefficient → ((10 : ℝ) ^ first ≤ d.toReal ∧ d.toReal < 10 ^ below ↔
      first ≤ (Nat.toDigits 10 d.coefficient).length + d.exponent - 1 ∧
        (Nat.toDigits 10 d.coefficient).length + d.exponent - 1 < below) := by
    intro hpos
    rw [zpow_le_toReal_iff hpos, ← not_le, zpow_le_toReal_iff hpos, not_le]
  have hcondition : d.coefficient = 0 ∨ (10 : ℝ) ^ first ≤ d.toReal ∧ d.toReal < 10 ^ below ↔
      d.coefficient = 0 ∨ first ≤ (Nat.toDigits 10 d.coefficient).length + d.exponent - 1 ∧
        (Nat.toDigits 10 d.coefficient).length + d.exponent - 1 < below := by
    rcases Nat.eq_zero_or_pos d.coefficient with hzero | hpos
    · simp only [hzero, true_or]
    · rw [hplaces hpos]
  rw [hcondition]
  unfold Style.magnitude
  simp only [hbounds, hkeeps]
  constructor
  · intro hplain
    by_contra houtside
    rw [if_neg houtside] at hplain
    refine hplain.not_mem ?_
    simp [scientific]
  · intro hinside
    rw [if_pos hinside]
    obtain ⟨whole, fraction, htext, hwhole, hdigits, hne, -⟩ := positional_toDigits hd
    exact ⟨negative, whole, fraction, by rw [htext], hwhole, hne, hdigits⟩

/-! ### Shortest decimals against bounds -/

/-- The shortest decimal of a double that is not below it. -/
def IsBound (tie : Tie) (bound : ℝ) : Prop :=
  ∃ (n : ℕ) (e : ℤ) (hn : 0 < n), Canonical (.finite .positive n e hn) ∧
    (shortest n e tie).toReal = bound ∧ bound ≤ real (.finite .positive n e hn)

section

variable {m n : ℕ} {q e : ℤ} {hm : 0 < m} {hn : 0 < n} {tie : Tie} {bound y : ℝ}

theorem canonical_injective (hc : Canonical (.finite .positive m q hm))
    (hc' : Canonical (.finite .positive n e hn)) (h : (m : ℝ) * 2 ^ q = n * 2 ^ e) :
    m = n ∧ q = e := by
  have hcompare := compare_magnitude hc hc'
  rw [compare_eq_iff_eq.2 h, Ordering.then_eq_eq, compare_eq_iff_eq, compare_eq_iff_eq] at hcompare
  exact ⟨hcompare.2, hcompare.1⟩

/-- Numbers above a bound stay above it when they are rounded. -/
theorem IsBound.le_nearest (hbound : IsBound tie bound) (h : bound ≤ y) : bound ≤ nearest y := by
  obtain ⟨n, e, hn, hc, rfl, hle⟩ := hbound
  calc (shortest n e tie).toReal ≤ real (.finite .positive n e hn) := hle
    _ = n * 2 ^ e := rfl
    _ = nearest (shortest n e tie).toReal := (nearest_of_rounds hc (rounds_shortest hc tie)).symm
    _ ≤ nearest y := nearest_mono h

/-- **A double and its shortest decimal are above the same bounds.** -/
theorem IsBound.le_shortest_iff (hbound : IsBound tie bound)
    (hc : Canonical (.finite .positive m q hm)) :
    bound ≤ (shortest m q tie).toReal ↔ bound ≤ m * 2 ^ q := by
  have hdouble := nearest_of_rounds hc (rounds_shortest hc tie)
  constructor
  · intro h
    rw [← hdouble]
    exact hbound.le_nearest h
  · intro h
    by_contra hlt
    obtain ⟨n, e, hn, hc', rfl, hle⟩ := hbound
    have hnearest := nearest_of_rounds hc' (rounds_shortest hc' tie)
    have hgrid : OnGrid (m * 2 ^ q) := hdouble ▸ onGrid_nearest _
    have hge : (n : ℝ) * 2 ^ e ≤ m * 2 ^ q := hnearest ▸ Binary64.nearest_le hgrid h
    have hmono := nearest_mono (not_le.1 hlt).le
    rw [hdouble, hnearest] at hmono
    -- so both are the same double, and its shortest decimal is the bound
    obtain ⟨rfl, rfl⟩ := canonical_injective hc hc' (hmono.antisymm hge)
    exact hlt le_rfl

end

/-! ### Figures -/

/-- The least number that is written around a point. -/
theorem isBound_first : IsBound .up (10 ^ (-4 : ℤ)) := by
  have hshortest : shortest 7378697629483821 (-66) .up = ⟨1, -4⟩ := by decide +kernel
  refine ⟨7378697629483821, -66, by decide, ⟨by norm_num, by norm_num, .inl (by norm_num)⟩, ?_, ?_⟩
  · rw [hshortest, toReal, Nat.cast_one, one_mul]
  · norm_num [real, signed]

/-- The least one that is too large for that. -/
theorem isBound_below : IsBound .up (10 ^ (16 : ℤ)) := by
  have hshortest : shortest 5000000000000000 1 .up = ⟨1, 16⟩ := by decide +kernel
  refine ⟨5000000000000000, 1, by decide, ⟨by norm_num, by norm_num, .inl (by norm_num)⟩, ?_, ?_⟩
  · rw [hshortest, toReal, Nat.cast_one, one_mul]
  · norm_num [real, signed]

/-- **A figure is written around a point** if it is zero or has its leading digit between the fourth
place after the point and the sixteenth in front of it. -/
theorem isPlain_figure_iff {x : Float} (hx : x.isFinite = true) :
    IsPlain (Style.figure.render x).toList ↔
      Binary64.toReal x = 0 ∨
        (10 : ℝ) ^ (-4 : ℤ) ≤ |Binary64.toReal x| ∧ |Binary64.toReal x| < 10 ^ 16 := by
  obtain ⟨negative, m, q, hvalue⟩ := exists_value_of_isFinite hx
  have hnumber : |Binary64.toReal x| = m * 2 ^ q := by
    rw [toReal_of_value hvalue]
    cases negative <;> simp
  have hzero : Binary64.toReal x = 0 ↔ m = 0 := by
    rw [← abs_eq_zero, hnumber, mul_eq_zero_iff_right (by positivity), Nat.cast_eq_zero]
  have htext : (Style.figure.render x).toList =
      (if negative then ['-'] else []) ++ Style.figure.magnitude (shortest m q .up) := by
    unfold Style.render
    rw [hvalue]
    exact String.toList_ofList
  rw [htext, isPlain_magnitude_iff negative rfl rfl (coefficient_shortest hvalue _), hzero, hnumber]
  rcases Nat.eq_zero_or_pos m with rfl | hm
  · simp [shortest]
  have hc := canonical_of_value hvalue hm
  have hpos := shortest_pos hc .up
  rw [isBound_first.le_shortest_iff hc, ← not_le, isBound_below.le_shortest_iff hc, not_le]
  simp [hm.ne', hpos.ne']

end Campaign.Decimal
