import Campaign.Proofs.RankSum.Classes
import Campaign.Proofs.RankSum.Outcome

/-!
# The exact p-value

When the method is the exact one, the p-value is the number of arrangements whose statistic is at
least the whole part of what the alternative asks about, divided by the number of all arrangements.
The alternative *less* asks about the statistic of the second sample; that its upper tail is the
lower tail of the first is the symmetry of the distribution.

* `share`: the part of the arrangements from a statistic up, as one division of doubles;
* `exactPValue`: the p-value of an alternative;
* `Config.IsExact`: the choices for which the exact method is used.

## Main statements

* `test_exact`: the p-value of an exact test.
-/

namespace Campaign.RankSum

open Binary64 Finset NullDistribution

/-- The part of the arrangements whose statistic is at least `k`. -/
def share (n₁ n₂ k : ℕ) : Float :=
  (countAtLeast n₁ n₂ k).toFloat / ((n₁ + n₂).choose n₁).toFloat

/-- The p-value of a statistic. -/
def exactPValue (n₁ n₂ : ℕ) (u : ℚ) : Alternative → Float
  | .greater => share n₁ n₂ ⌊u⌋₊
  | .less => share n₁ n₂ ⌊(n₁ * n₂ : ℕ) - u⌋₊
  | .twoSided => min 1 (share n₁ n₂ ⌊max u ((n₁ * n₂ : ℕ) - u)⌋₊ * 2)

/-- The exact method is asked for, or chosen because there are no ties and one sample is small. -/
def Config.IsExact (c : Config) (x y : List Float) : Prop :=
  c.method = .exact ∨
    c.method = .auto ∧ AllDistinct (x ++ y) ∧ min x.length y.length ≤ exactThreshold

instance (c : Config) (x y : List Float) : Decidable (c.IsExact x y) :=
  inferInstanceAs (Decidable (_ ∨ _))

/-! ### The p-value of one alternative -/

section

variable {n₁ n₂ : ℕ}

theorem exists_hasValue_double_share (h : (n₁ + n₂).choose n₁ ≤ 2 ^ 53) (k : ℕ) :
    ∃ q, HasValue (share n₁ n₂ k * 2) q ∧ 0 ≤ q := by
  obtain ⟨p, hp, h0, h1⟩ := exists_hasValue_share (countAtLeast_le n₁ n₂ k) (choose_pos n₁ n₂) h
  have hle : |p * 2| ≤ 2 ^ 1 := by
    rw [abs_of_nonneg (by linarith)]
    linarith
  exact ⟨_, hp.mul hasValue_two (abs_nearest_lt (by norm_num) hle), nearest_nonneg (by linarith)⟩

/-- What the alternative does with the upper tail of the number that it asks about. -/
theorem pvalue_report (c : Config) (h : (n₁ + n₂).choose n₁ ≤ 2 ^ 53) (u₁ : Float) (m : Method)
    (r : ℚ) :
    (c.report u₁ (m, share n₁ n₂ ⌊c.alternative.chosen r ((n₁ * n₂ : ℕ) - r)⌋₊)).pvalue =
      exactPValue n₁ n₂ r c.alternative := by
  have hclamp : ∀ k, clamp 0 1 (share n₁ n₂ k) = share n₁ n₂ k := by
    intro k
    obtain ⟨p, hp, h0, h1⟩ := exists_hasValue_share (countAtLeast_le n₁ n₂ k) (choose_pos n₁ n₂) h
    exact clamp_eq hp h0 h1
  unfold Config.report
  cases c.alternative with
  | less => exact hclamp _
  | greater => exact hclamp _
  | twoSided =>
    obtain ⟨q, hq, h0⟩ :=
      exists_hasValue_double_share h ⌊Alternative.twoSided.chosen r ((n₁ * n₂ : ℕ) - r)⌋₊
    exact clamp_eq_min hq h0

end

/-! ### Samples without ties -/

theorem countAtLeast_max (m n a b : ℕ) :
    countAtLeast m n (max a b) = min (countAtLeast m n a) (countAtLeast m n b) := by
  rcases le_total a b with h | h
  · rw [max_eq_right h, min_eq_right (countAtLeast_anti h)]
  · rw [max_eq_left h, min_eq_left (countAtLeast_anti h)]

section

variable {x y : List Float}

theorem draws_of_allDistinct (h : AllDistinct (x ++ y)) : draws x y = 0 := by
  refine List.countP_eq_zero.2 fun p hp => ?_
  obtain ⟨v, w⟩ := p
  obtain ⟨hv, hw⟩ := List.mem_product.1 hp
  have := (List.pairwise_append.1 h).2.2 v hv w hw
  simp [this]

/-- The probability that the alternative asks about, for samples without ties. -/
def permutationPValue (n₁ n₂ k : ℕ) : Alternative → Float
  | .greater =>
    (#{S ∈ arrangements n₁ n₂ | k ≤ rankStatistic S}).toFloat / ((n₁ + n₂).choose n₁).toFloat
  | .less =>
    (#{S ∈ arrangements n₁ n₂ | rankStatistic S ≤ k}).toFloat / ((n₁ + n₂).choose n₁).toFloat
  | .twoSided =>
    min 1 ((min #{S ∈ arrangements n₁ n₂ | k ≤ rankStatistic S}
      #{S ∈ arrangements n₁ n₂ | rankStatistic S ≤ k}).toFloat /
        ((n₁ + n₂).choose n₁).toFloat * 2)

/-- **Whole statistics.** Where the statistic is a whole number, the p-value is a probability of
the permutation distribution, for *less* and for the smaller tail by its symmetry. -/
theorem exactPValue_natCast {n₁ n₂ k : ℕ} (hk : k ≤ n₁ * n₂) (a : Alternative) :
    exactPValue n₁ n₂ k a = permutationPValue n₁ n₂ k a := by
  have hsub : ((n₁ * n₂ : ℕ) : ℚ) - k = (n₁ * n₂ - k : ℕ) := (Nat.cast_sub hk).symm
  have hlower := countAtLeast_sub hk
  cases a with
  | greater =>
    rw [exactPValue, Nat.floor_natCast]
    rfl
  | less =>
    rw [exactPValue, hsub, Nat.floor_natCast, share, hlower]
    rfl
  | twoSided =>
    rw [exactPValue, hsub, ← Nat.cast_max, Nat.floor_natCast, share, countAtLeast_max, hlower]
    rfl

/-! ### The exact test -/

theorem length_mul_succ_le (hx : x ≠ []) (hy : y ≠ []) (hcells : x.length * y.length ≤ maxCells) :
    (x ++ y).length * ((x ++ y).length + 1) ≤ 2 ^ 53 := by
  have hx' := List.length_pos_iff.2 hx
  have hy' := List.length_pos_iff.2 hy
  have hle : (x ++ y).length ≤ 250001 := by
    rw [List.length_append]
    unfold maxCells at hcells
    nlinarith
  exact (Nat.mul_le_mul hle (Nat.succ_le_succ hle)).trans (by norm_num)

theorem resolve_of_isExact {c : Config} (hc : c.IsExact x y) (hfin : AllFinite (x ++ y)) :
    c.resolve x.length y.length (PooledRanks.of x y).hasTies = .exact := by
  obtain hc | ⟨hc, hdistinct, hsmall⟩ := hc
  · simp [Config.resolve, hc]
  · have hties : (PooledRanks.of x y).hasTies = false := Bool.eq_false_iff.2 fun h =>
      (PooledRanks.hasTies_iff hfin.numbers).1 h hdistinct
    simp [Config.resolve, hc, hties, hsmall]

/-- **The exact test.** Its p-value is the share of the arrangements beyond the statistic, and for
samples without ties the probability in the permutation distribution. -/
theorem test_exact (tail : Float → Float) {c : Config} (h : Comparable x y)
    (hcells : x.length * y.length ≤ maxCells)
    (hchoose : (x.length + y.length).choose x.length ≤ 2 ^ 53) (hc : c.IsExact x y) :
    ∃ r, test tail x y c = .ok r ∧ r.method = .exact ∧
      r.pvalue = exactPValue x.length y.length (pairStatistic x y) c.alternative ∧
      (AllDistinct (x ++ y) →
        r.pvalue = permutationPValue x.length y.length (wins x y) c.alternative) := by
  have hN := length_mul_succ_le h.left h.right hcells
  obtain ⟨hx, hy⟩ := h.finite.append
  obtain ⟨u₁, u₂, h₁, h₂, htest⟩ := test_of_comparable tail c h hN
  have hvalue := hasValue_choose c.alternative h₁ h₂
  have hmem := chosen_mem (a := c.alternative) (pairStatistic_mem hx hy)
  have hbound : x.length * y.length < 2 ^ 64 := hcells.trans_lt (by norm_num [maxCells])
  have hp : pValue tail (c.alternative.choose u₁ u₂) x.length y.length (PooledRanks.of x y) c =
      .ok (.exact, share x.length y.length
        ⌊c.alternative.chosen (pairStatistic x y)
          ((x.length * y.length : ℕ) - pairStatistic x y)⌋₊) := by
    simp only [pValue, resolve_of_isExact hc h.finite, if_true, tabulate?_eq_some hcells hchoose]
    rw [upperTail_tabulate hchoose hbound hvalue (by exact_mod_cast hmem.1)
      (by exact_mod_cast hmem.2), ← Int.floor_toNat, Rat.floor_cast, Int.floor_toNat]
    rfl
  rw [hp] at htest
  have hpvalue := pvalue_report c hchoose u₁ .exact (pairStatistic x y)
  refine ⟨_, htest, rfl, hpvalue, fun hdistinct => ?_⟩
  have hwins : pairStatistic x y = wins x y := by
    rw [pairStatistic, draws_of_allDistinct hdistinct]
    simp
  have hle : wins x y ≤ x.length * y.length := by
    have := wins_add_draws_add_wins hx hy
    omega
  rw [hpvalue, hwins, exactPValue_natCast hle]

theorem test_exact_of_half :
    Comparable [2, 3] [1, 2] ∧ 2 * 2 ≤ maxCells ∧ (2 + 2).choose 2 ≤ 2 ^ 53 ∧
      Config.IsExact { alternative := .greater, method := .exact } [2, 3] [1, 2] ∧
      ∃ r, test normalUpperTail [2, 3] [1, 2] { alternative := .greater, method := .exact } = .ok r ∧
        r.method = .exact ∧ r.pvalue = (2 : ℕ).toFloat / (6 : ℕ).toFloat := by
  have h : Comparable [2, 3] [1, 2] :=
    ⟨by decide, by decide, by decide +kernel, by decide +kernel⟩
  have hc : Config.IsExact { alternative := .greater, method := .exact } [2, 3] [1, 2] := .inl rfl
  obtain ⟨r, hr, hmethod, hp, -⟩ := test_exact normalUpperTail h (by decide) (by decide) hc
  have hwins : wins [2, 3] [1, 2] = 3 := by decide +kernel
  have hdraws : draws [2, 3] [1, 2] = 1 := by decide +kernel
  have hfloor : ⌊pairStatistic [2, 3] [1, 2]⌋₊ = 3 := by
    rw [pairStatistic, hwins, hdraws]
    decide +kernel
  have hcount : countAtLeast 2 2 3 = 2 := by decide +kernel
  refine ⟨h, by decide, by decide, hc, r, hr, hmethod, hp.trans ?_⟩
  simp only [exactPValue, share, hfloor, List.length_cons, List.length_nil, hcount]
  rfl

end

end Campaign.RankSum
