import Campaign.Proofs.RankSum.Score
import Campaign.Proofs.RankSum.Table
import Campaign.RankSum.NormalTail

/-!
# The outcome of a test

Two samples are empty, not finite, all equal, or comparable, in this order. For comparable samples
the test has a result, and the numbers in it are finite.

* `Comparable`: the samples that can be compared;
* `Alternative.chosen`: the number that the alternative asks about.

## Main statements

* `test_of_comparable`: the course of a test after the checks.
* `statistic_eq_wins_add_half_draws`: the reported statistic counts pairs.
* `test_outcome`: which outcome a test has, and what holds of its result.
-/

namespace Campaign.RankSum

open Binary64

/-- Samples that can be compared. -/
structure Comparable (x y : List Float) : Prop where
  left : x ≠ []
  right : y ≠ []
  finite : AllFinite (x ++ y)
  differ : ¬ AllEqual (x ++ y)

/-! ### The checks -/

section

variable (tail : Float → Float) {x y : List Float} (c : Config)

theorem test_of_empty (h : x = [] ∨ y = []) :
    test tail x y c = .error (.emptySample x.length y.length) := by
  have hempty : (x.isEmpty || y.isEmpty) = true := by
    rcases h with rfl | rfl <;> simp
  simp only [test, checkInput, hempty, if_true]
  rfl

theorem test_of_not_finite (hx : x ≠ []) (hy : y ≠ []) (h : ¬ AllFinite (x ++ y)) :
    test tail x y c = .error .nonFinite := by
  have hnonempty : (x.isEmpty || y.isEmpty) = false := by simp [hx, hy]
  have hany : (x ++ y).any (!·.isFinite) = true := by
    rw [AllFinite] at h
    push Not at h
    obtain ⟨v, hv, hfin⟩ := h
    exact List.any_eq_true.2 ⟨v, hv, by simpa using hfin⟩
  simp only [test, checkInput, hnonempty, hany, Bool.false_eq_true, if_false, if_true]
  rfl

theorem checkInput_eq_ok (hx : x ≠ []) (hy : y ≠ []) (h : AllFinite (x ++ y)) :
    checkInput x y = .ok () := by
  have hnonempty : (x.isEmpty || y.isEmpty) = false := by simp [hx, hy]
  have hany : (x ++ y).any (!·.isFinite) = false := by
    refine List.any_eq_false.2 fun v hv => ?_
    simp [h v hv]
  simp only [checkInput, hnonempty, hany, Bool.false_eq_true, if_false]

theorem two_le_length (hx : x ≠ []) (hy : y ≠ []) : 2 ≤ (x ++ y).length := by
  have := List.length_pos_iff.2 hx
  have := List.length_pos_iff.2 hy
  rw [List.length_append]
  omega

theorem test_of_allEqual (hx : x ≠ []) (hy : y ≠ []) (hfin : AllFinite (x ++ y))
    (h : AllEqual (x ++ y)) : test tail x y c = .error .degenerate := by
  have htied := (PooledRanks.allTied_of_iff hfin.numbers (two_le_length hx hy)).2 h
  simp only [test, checkInput_eq_ok hx hy hfin, htied, if_true]
  rfl

/-- The result with a given statistic, method and tail. -/
def Config.report (c : Config) (u₁ : Float) (p : Method × Float) : Result where
  statistic := u₁
  pvalue := clamp 0 1 (if c.alternative = .twoSided then p.2 * 2 else p.2)
  method := p.1
  alternative := c.alternative

/-- **The course of a test after the checks.** -/
theorem test_of_comparable (h : Comparable x y)
    (hN : (x ++ y).length * ((x ++ y).length + 1) ≤ 2 ^ 53) :
    ∃ u₁ u₂, HasValue u₁ (pairStatistic x y) ∧
      HasValue u₂ ((x.length * y.length : ℕ) - pairStatistic x y : ℚ) ∧
      test tail x y c = (pValue tail (c.alternative.choose u₁ u₂) x.length y.length
        (PooledRanks.of x y) c).map (c.report u₁) := by
  obtain ⟨r, hr, h₁, h₂⟩ := hasValue_statistics h.finite hN
  have htied : (PooledRanks.of x y).allTied = false := by
    rw [← Bool.not_eq_true, PooledRanks.allTied_of_iff h.finite.numbers (two_le_length h.left h.right)]
    exact h.differ
  refine ⟨_, _, h₁, h₂, ?_⟩
  simp only [test, checkInput_eq_ok h.left h.right h.finite, htied, hr]
  generalize pValue tail _ _ _ _ _ = p
  cases p <;> rfl

end

/-! ### What the alternative asks about -/

/-- The number that the alternative asks about. -/
def Alternative.chosen (a : Alternative) (r s : ℚ) : ℚ :=
  match a with
  | greater => r
  | less => s
  | twoSided => max r s

theorem hasValue_choose (a : Alternative) {u v : Float} {r s : ℚ} (hu : HasValue u r)
    (hv : HasValue v s) : HasValue (a.choose u v) (a.chosen r s) := by
  cases a with
  | less => exact hv
  | greater => exact hu
  | twoSided =>
    have := hu.max hv
    rwa [← Rat.cast_max] at this

theorem chosen_mem {a : Alternative} {r b : ℚ} (hr : 0 ≤ r ∧ r ≤ b) :
    0 ≤ a.chosen r (b - r) ∧ a.chosen r (b - r) ≤ b := by
  obtain ⟨h0, hb⟩ := hr
  cases a with
  | less => exact ⟨sub_nonneg.2 hb, sub_le_self b h0⟩
  | greater => exact ⟨h0, hb⟩
  | twoSided => exact ⟨h0.trans (le_max_left r _), max_le hb (by linarith)⟩

section

variable {x y : List Float}

/-! ### The tail -/

theorem exists_tiedVariance_of_comparable (h : Comparable x y)
    (hN : (x ++ y).length * ((x ++ y).length + 1) ≤ 2 ^ 53) :
    ∃ v, HasValue (tiedVariance x.length y.length (PooledRanks.of x y).tieTerm) v ∧
      1 / 16 ≤ v := by
  have hx := List.length_pos_iff.2 h.left
  have hy := List.length_pos_iff.2 h.right
  obtain ⟨m, hm⟩ : ∃ m, (x ++ y).length = m + 1 :=
    ⟨(x ++ y).length - 1, by rw [List.length_append]; omega⟩
  rw [hm] at hN
  obtain ⟨t, ht, h0, hle⟩ := exists_hasValue_tieTerm h.finite h.differ hm hN
  rw [List.length_append] at hm
  exact exists_hasValue_tiedVariance hx hy hm hN ht h0 hle

variable (tail : Float → Float) (c : Config)

/-- The tail comes from the table or from the normal approximation, and there always is one. -/
theorem pValue_of_comparable (h : Comparable x y)
    (hN : (x ++ y).length * ((x ++ y).length + 1) ≤ 2 ^ 53) {u : Float} {a : ℚ} (hu : HasValue u a)
    (ha : 0 ≤ a ∧ a ≤ (x.length * y.length : ℕ)) :
    (pValue tail u x.length y.length (PooledRanks.of x y) c =
        .ok (.exact, (NullDistribution.tabulate x.length y.length).upperTail u) ∧
      x.length * y.length ≤ maxCells) ∨
    ∃ z : Float, z.isFinite = true ∧
      pValue tail u x.length y.length (PooledRanks.of x y) c = .ok (.asymptotic, tail z) := by
  simp only [pValue]
  cases htable : if c.resolve x.length y.length (PooledRanks.of x y).hasTies = .exact then
    NullDistribution.tabulate? x.length y.length else none with
  | some d =>
    left
    split_ifs at htable
    obtain ⟨hcells, rfl⟩ := NullDistribution.of_tabulate?_eq_some htable
    exact ⟨rfl, hcells⟩
  | none =>
    right
    obtain ⟨hsizes, hx, hy⟩ := sizes_le hN
    obtain ⟨v, hv, hv16⟩ := exists_tiedVariance_of_comparable h hN
    have hcells : x.length * y.length ≤ 2 ^ 53 := by omega
    have ha' : |(a : ℝ)| ≤ 2 ^ 53 := by
      have hle : a ≤ 2 ^ 53 := ha.2.trans (by exact_mod_cast hcells)
      rw [abs_of_nonneg (by exact_mod_cast ha.1)]
      exact_mod_cast hle
    obtain ⟨z, hz, htail⟩ := exists_asymptoticTail tail hu ha' hx hy hcells hv hv16 c.continuity
    refine ⟨z, hz, ?_⟩
    rw [htail]
    rfl

theorem exists_pValue_of_comparable (h : Comparable x y)
    (hN : (x ++ y).length * ((x ++ y).length + 1) ≤ 2 ^ 53) {u : Float} {a : ℚ} (hu : HasValue u a)
    (ha : 0 ≤ a ∧ a ≤ (x.length * y.length : ℕ)) :
    ∃ p, pValue tail u x.length y.length (PooledRanks.of x y) c = .ok p := by
  obtain ⟨hp, -⟩ | ⟨z, -, hp⟩ := pValue_of_comparable tail c h hN hu ha
  · exact ⟨_, hp⟩
  · exact ⟨_, hp⟩

/-- **The statistic counts pairs.** It is the number of pairs that the first sample wins, and one
half for each draw, without any rounding. -/
theorem statistic_eq_wins_add_half_draws (h : Comparable x y)
    (hN : (x ++ y).length * ((x ++ y).length + 1) < 2 ^ 53) :
    ∃ r, test tail x y c = .ok r ∧
      HasValue r.statistic (wins x y + 1 / 2 * draws x y) := by
  obtain ⟨hx, hy⟩ := h.finite.append
  obtain ⟨u₁, u₂, h₁, h₂, htest⟩ := test_of_comparable tail c h hN.le
  obtain ⟨p, hp⟩ := exists_pValue_of_comparable tail c h hN.le
    (hasValue_choose c.alternative h₁ h₂) (chosen_mem (pairStatistic_mem hx hy))
  rw [hp] at htest
  have hcast : ((pairStatistic x y : ℚ) : ℝ) = wins x y + 1 / 2 * draws x y := by
    rw [pairStatistic]
    push_cast
    ring
  exact ⟨c.report u₁ p, htest, hcast ▸ h₁⟩

theorem statistic_of_negZero :
    Comparable [-0.0, 3] [0.0, 1] ∧
      ∃ r, test normalUpperTail [-0.0, 3] [0.0, 1] {} = .ok r ∧
        HasValue r.statistic (2 + 1 / 2) := by
  have h : Comparable [-0.0, 3] [0.0, 1] :=
    ⟨by decide, by decide, by decide +kernel, by decide +kernel⟩
  have hwins : wins [-0.0, 3] [0.0, 1] = 2 := by decide +kernel
  have hdraws : draws [-0.0, 3] [0.0, 1] = 1 := by decide +kernel
  obtain ⟨r, hr, hvalue⟩ := statistic_eq_wins_add_half_draws normalUpperTail {} h (by decide)
  rw [hwins, hdraws, Nat.cast_ofNat, Nat.cast_one, mul_one] at hvalue
  exact ⟨h, r, hr, hvalue⟩

/-! ### Every outcome -/

theorem mul_succ_le_of_cube {N : ℕ} (hN : N ^ 3 < 2 ^ 53) : N * (N + 1) ≤ 2 ^ 53 := by
  obtain h | h := Nat.lt_or_ge N 2
  · interval_cases N <;> norm_num
  · have hle : N + 1 ≤ N ^ 2 := by nlinarith
    calc N * (N + 1) ≤ N * N ^ 2 := Nat.mul_le_mul_left N hle
      _ = N ^ 3 := by ring
      _ ≤ 2 ^ 53 := hN.le

/-- The normal approximation has a result for whatever statistic it is given. -/
theorem asymptoticTail_of_comparable (h : Comparable x y)
    (hN : (x ++ y).length * ((x ++ y).length + 1) ≤ 2 ^ 53) (u : Float) (continuity : Bool) :
    ∃ p, asymptoticTail tail u x.length y.length (PooledRanks.of x y).tieTerm continuity =
      .ok p := by
  obtain ⟨v, hv, hv16⟩ := exists_tiedVariance_of_comparable h hN
  have hpositive : ¬ tiedVariance x.length y.length (PooledRanks.of x y).tieTerm ≤ 0 := by
    rw [hv.le_iff hasValue_zero]
    linarith
  simp [asymptoticTail, hpositive, hv.isFinite]

/-- The p-value of either method is a probability. -/
theorem exists_hasValue_report {m : Method} {p : Float} (hp : p.isNaN = false) (u : Float) :
    ∃ q, HasValue (c.report u (m, p)).pvalue q ∧ 0 ≤ q ∧ q ≤ 1 := by
  refine clamp_unit ?_
  split_ifs
  · exact isNaN_mul_two hp
  · exact hp

/-- The four outcomes. -/
theorem test_cases (x y : List Float) (hN : (x ++ y).length * ((x ++ y).length + 1) ≤ 2 ^ 53) :
    (x = [] ∨ y = []) ∧ test tail x y c = .error (.emptySample x.length y.length) ∨
    (x ≠ [] ∧ y ≠ []) ∧ ¬ AllFinite (x ++ y) ∧ test tail x y c = .error .nonFinite ∨
    (x ≠ [] ∧ y ≠ []) ∧ AllFinite (x ++ y) ∧ AllEqual (x ++ y) ∧
      test tail x y c = .error .degenerate ∨
    Comparable x y ∧ ∃ r, test tail x y c = .ok r := by
  by_cases hempty : x = [] ∨ y = []
  · exact .inl ⟨hempty, test_of_empty tail c hempty⟩
  rw [not_or] at hempty
  obtain ⟨hx, hy⟩ := hempty
  by_cases hfin : AllFinite (x ++ y)
  · by_cases hequal : AllEqual (x ++ y)
    · exact .inr (.inr (.inl ⟨⟨hx, hy⟩, hfin, hequal, test_of_allEqual tail c hx hy hfin hequal⟩))
    · have h : Comparable x y := ⟨hx, hy, hfin, hequal⟩
      obtain ⟨u₁, u₂, h₁, h₂, htest⟩ := test_of_comparable tail c h hN
      obtain ⟨p, hp⟩ := exists_pValue_of_comparable tail c h hN
        (hasValue_choose c.alternative h₁ h₂)
        (chosen_mem (pairStatistic_mem hfin.append.1 hfin.append.2))
      rw [hp] at htest
      exact .inr (.inr (.inr ⟨h, _, htest⟩))
  · exact .inr (.inl ⟨⟨hx, hy⟩, hfin, test_of_not_finite tail c hx hy hfin⟩)

/-- What a result says besides its numbers. -/
theorem report_of_test {r : Result} (hN : (x ++ y).length * ((x ++ y).length + 1) ≤ 2 ^ 53)
    (h : Comparable x y) (hr : test tail x y c = .ok r) :
    r.method ≠ .auto ∧ r.alternative = c.alternative ∧
      (∃ s, HasValue r.statistic s ∧ 0 ≤ s ∧ s ≤ (x.length * y.length : ℕ)) ∧
      ((∀ z : Float, z.isFinite = true → (tail z).isNaN = false) →
        (r.method = .exact → (x.length + y.length).choose x.length ≤ 2 ^ 53) →
        ∃ p, HasValue r.pvalue p ∧ 0 ≤ p ∧ p ≤ 1) := by
  obtain ⟨u₁, u₂, h₁, h₂, htest⟩ := test_of_comparable tail c h hN
  have hrange := pairStatistic_mem h.finite.append.1 h.finite.append.2
  have hu₁ : 0 ≤ (pairStatistic x y : ℝ) ∧ (pairStatistic x y : ℝ) ≤ (x.length * y.length : ℕ) := by
    exact_mod_cast hrange
  have hchosen := hasValue_choose c.alternative h₁ h₂
  have hmem := chosen_mem (a := c.alternative) hrange
  rw [hr] at htest
  obtain ⟨hp, hcells⟩ | ⟨z, hz, hp⟩ := pValue_of_comparable tail c h hN hchosen hmem
  · rw [hp] at htest
    obtain rfl := Except.ok.inj htest
    refine ⟨by simp [Config.report], rfl, ⟨_, h₁, hu₁⟩, fun _ hexact => ?_⟩
    have hchoose := hexact rfl
    have hbound : x.length * y.length < 2 ^ 64 := hcells.trans_lt (by norm_num [maxCells])
    rw [NullDistribution.upperTail_tabulate hchoose hbound hchosen (by exact_mod_cast hmem.1)
      (by exact_mod_cast hmem.2)]
    obtain ⟨p, hvalue, -⟩ := NullDistribution.exists_hasValue_share
      (countAtLeast_le x.length y.length _) (NullDistribution.choose_pos _ _) hchoose
    exact exists_hasValue_report c hvalue.isNaN u₁
  · rw [hp] at htest
    obtain rfl := Except.ok.inj htest
    refine ⟨by simp [Config.report], rfl, ⟨_, h₁, hu₁⟩, fun htail _ => ?_⟩
    exact exists_hasValue_report c (htail z hz) u₁

/-- **Every outcome.** A test fails because a sample is empty, because a value is not finite, or
because all values are equal, in this order, and for no other reason; what it returns is in range. -/
theorem test_outcome (x y : List Float) (hN : (x ++ y).length ^ 3 < 2 ^ 53) :
    (∀ n₁ n₂, test tail x y c = .error (.emptySample n₁ n₂) ↔
      (x = [] ∨ y = []) ∧ n₁ = x.length ∧ n₂ = y.length) ∧
    (test tail x y c = .error .nonFinite ↔
      (x ≠ [] ∧ y ≠ []) ∧ ∃ v ∈ x ++ y, v.isFinite = false) ∧
    (test tail x y c = .error .degenerate ↔
      (x ≠ [] ∧ y ≠ []) ∧ AllFinite (x ++ y) ∧ AllEqual (x ++ y)) ∧
    ((∃ r, test tail x y c = .ok r) ↔
      (x ≠ [] ∧ y ≠ []) ∧ AllFinite (x ++ y) ∧ ¬ AllEqual (x ++ y)) ∧
    (Comparable x y → ∀ u continuity, ∃ p,
      asymptoticTail tail u x.length y.length (PooledRanks.of x y).tieTerm continuity = .ok p) ∧
    ∀ r, test tail x y c = .ok r →
      r.method ≠ .auto ∧ r.alternative = c.alternative ∧
      (∃ s, HasValue r.statistic s ∧ 0 ≤ s ∧ s ≤ (x.length * y.length : ℕ)) ∧
      ((∀ z : Float, z.isFinite = true → (tail z).isNaN = false) →
        (r.method = .exact → (x.length + y.length).choose x.length ≤ 2 ^ 53) →
        ∃ p, HasValue r.pvalue p ∧ 0 ≤ p ∧ p ≤ 1) := by
  have hN' := mul_succ_le_of_cube hN
  have hnotFinite : (∃ v ∈ x ++ y, v.isFinite = false) ↔ ¬ AllFinite (x ++ y) := by
    simp only [AllFinite, not_forall, exists_prop, Bool.not_eq_true]
  rw [hnotFinite]
  obtain ⟨hempty, htest⟩ | ⟨hne, hfin, htest⟩ | ⟨hne, hfin, hequal, htest⟩ | ⟨h, r, htest⟩ :=
    test_cases tail c x y hN'
  · have hne : ¬ (x ≠ [] ∧ y ≠ []) := by tauto
    refine ⟨fun n₁ n₂ => ?_, ?_, ?_, ?_, fun h => (hne ⟨h.left, h.right⟩).elim, ?_⟩
    · rw [htest]
      simp [hempty, eq_comm]
    all_goals simp [htest, hne]
  · refine ⟨?_, ?_, ?_, ?_, fun h => (hfin h.finite).elim, ?_⟩ <;> simp [htest, hne, hfin]
  · refine ⟨?_, ?_, ?_, ?_, fun h => (h.differ hequal).elim, ?_⟩ <;>
      simp [htest, hne, hfin, hequal]
  · refine ⟨?_, ?_, ?_, ?_, fun h => asymptoticTail_of_comparable tail h hN',
      fun r hr => report_of_test tail c hN' h hr⟩
    all_goals simp [htest, h.left, h.right, h.finite, h.differ]

theorem test_outcome_singletons :
    ([1] ++ [2] : List Float).length ^ 3 < 2 ^ 53 ∧
      test normalUpperTail [1] [1] {} = .error .degenerate ∧
      ∃ r, test normalUpperTail [1] [2] { method := .asymptotic } = .ok r ∧
        ∃ p, HasValue r.pvalue p ∧ 0 ≤ p ∧ p ≤ 1 := by
  obtain ⟨-, -, hdegenerate, -⟩ := test_outcome normalUpperTail {} [1] [1] (by decide)
  obtain ⟨-, -, -, hok, -, hresult⟩ :=
    test_outcome normalUpperTail { method := .asymptotic } [1] [2] (by decide)
  obtain ⟨r, hr⟩ := hok.2 ⟨by decide, by decide +kernel, by decide +kernel⟩
  obtain ⟨-, -, -, hp⟩ := hresult r hr
  refine ⟨by decide, hdegenerate.2 ⟨by decide, by decide +kernel, by decide +kernel⟩, r, hr, ?_⟩
  exact hp (fun z _ => isNaN_of_le (normalUpperTail_le_one z)) fun _ => by decide

end

end Campaign.RankSum
