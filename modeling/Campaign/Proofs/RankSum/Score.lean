import Campaign.Proofs.RankSum.Variance

/-!
# The score of a statistic

The normal approximation takes the tail of a score: the distance of the statistic from its mean in
standard deviations. Every step from the statistic to its score is a rounded operation with a fixed
second operand, and rounding is monotone; so the score is a finite number that does not fall when
the statistic grows.

* `score`: the argument of the tail.

## Main statements

* `exists_monotone_score`: the score is a monotone function of the statistic.
* `exists_asymptoticTail`: the normal approximation asks for the tail of a finite number.
-/

namespace Campaign.RankSum

open Binary64

/-- The distance of a statistic from its mean in standard deviations; the correction for continuity
takes half a unit off it. -/
def score (u : Float) (n₁ n₂ : ℕ) (tieTerm : Float) (continuity : Bool) : Float :=
  let z := u - n₁.toFloat * n₂.toFloat / 2
  (if continuity then z - 0.5 else z) / (tiedVariance n₁ n₂ tieTerm).sqrt

/-! ### The steps to the score -/

theorem hasValue_sub_of_le {x y : Float} {a b : ℝ} {k : ℕ} (hk : k + 1 < 1024) (hx : HasValue x a)
    (hy : HasValue y b) (ha : |a| ≤ 2 ^ k) (hb : |b| ≤ 2 ^ k) :
    HasValue (x - y) (nearest (a - b)) ∧ |nearest (a - b)| ≤ 2 ^ (k + 1) := by
  have hle : |a - b| ≤ 2 ^ (k + 1) := by
    rw [pow_succ]
    linarith [abs_sub a b]
  exact ⟨hx.sub hy (abs_nearest_lt hk hle), abs_nearest_le (onGrid_pow (k + 1)) hle⟩

section

variable {n₁ n₂ : ℕ} (h1 : n₁ ≤ 2 ^ 53) (h2 : n₂ ≤ 2 ^ 53) (hcells : n₁ * n₂ ≤ 2 ^ 53)

include h1 h2 hcells

/-- The mean of the statistic is held exactly. -/
theorem hasValue_mean : HasValue (n₁.toFloat * n₂.toFloat / 2) (n₁ * n₂ / 2) := by
  have hsmall : IsSmall (n₁ * n₂ : ℕ) := isSmall_natCast.2 hcells
  have hgrid := onGrid_half hsmall
  have hlt := half_lt_overflow hsmall
  have hproduct := hasValue_natCast_mul (hasValue_natCast h1) (hasValue_natCast h2) hcells
  rw [Int.cast_natCast] at hgrid hlt
  have hhalf := hproduct.div_exact hasValue_two two_ne_zero hgrid hlt
  rwa [Nat.cast_mul] at hhalf

theorem exists_hasValue_mean :
    ∃ μ, HasValue (n₁.toFloat * n₂.toFloat / 2) μ ∧ |μ| ≤ 2 ^ 53 := by
  refine ⟨_, hasValue_mean h1 h2 hcells, ?_⟩
  have h0 : (0 : ℝ) ≤ n₁ * n₂ := by positivity
  have hle : ((n₁ : ℝ) * n₂) ≤ 2 ^ 53 := by exact_mod_cast hcells
  rw [abs_of_nonneg (by linarith)]
  linarith

end

theorem exists_hasValue_sqrt {x : Float} {v : ℝ} (hx : HasValue x v) (h : 1 / 16 ≤ v) :
    ∃ s, HasValue x.sqrt s ∧ 1 / 4 ≤ s := by
  have hgrid : OnGrid (1 / 4) := by
    have := onGrid_zpow (e := -2) (by norm_num)
    norm_num at this ⊢
    exact this
  refine ⟨_, hx.sqrt (by linarith), le_nearest hgrid (Real.le_sqrt_of_sq_le ?_)⟩
  linarith

/-! ### The score -/

section

variable {n₁ n₂ : ℕ} {t : Float} {v : ℝ}

/-- **The score grows with the statistic.** -/
theorem exists_monotone_score (h1 : n₁ ≤ 2 ^ 53) (h2 : n₂ ≤ 2 ^ 53) (hcells : n₁ * n₂ ≤ 2 ^ 53)
    (hv : HasValue (tiedVariance n₁ n₂ t) v) (hv16 : 1 / 16 ≤ v) (continuity : Bool) :
    ∃ f : ℝ → ℝ, Monotone f ∧ ∀ {u : Float} {a : ℝ}, HasValue u a → |a| ≤ 2 ^ 53 →
      HasValue (score u n₁ n₂ t continuity) (f a) := by
  obtain ⟨μ, hμ, hμle⟩ := exists_hasValue_mean h1 h2 hcells
  obtain ⟨s, hs, hs4⟩ := exists_hasValue_sqrt hv hv16
  have hspos : 0 < s := by linarith
  obtain ⟨g, hmono, hg⟩ : ∃ g : ℝ → ℝ, Monotone g ∧ ∀ {u : Float} {a : ℝ}, HasValue u a →
      |a| ≤ 2 ^ 53 → HasValue (if continuity then u - n₁.toFloat * n₂.toFloat / 2 - 0.5
        else u - n₁.toFloat * n₂.toFloat / 2) (g a) ∧ |g a| ≤ 2 ^ 55 := by
    have hcentre : Monotone fun a => nearest (a - μ) :=
      fun a b hab => nearest_mono (sub_le_sub_right hab μ)
    cases continuity with
    | false =>
      refine ⟨_, hcentre, fun hu ha => ?_⟩
      obtain ⟨hc, hcle⟩ := hasValue_sub_of_le (by norm_num) hu hμ ha hμle
      exact ⟨hc, hcle.trans (pow_le_pow_right₀ one_le_two (by norm_num))⟩
    | true =>
      refine ⟨fun a => nearest (nearest (a - μ) - 1 / 2),
        fun a b hab => nearest_mono (sub_le_sub_right (hcentre hab) _), fun hu ha => ?_⟩
      obtain ⟨hc, hcle⟩ := hasValue_sub_of_le (by norm_num) hu hμ ha hμle
      exact hasValue_sub_of_le (by norm_num) hc hasValue_half hcle (by norm_num [abs_of_pos])
  refine ⟨fun a => nearest (g a / s),
    fun a b hab => nearest_mono (div_le_div_of_nonneg_right (hmono hab) hspos.le),
    fun {u a} hu ha => ?_⟩
  obtain ⟨hz, hzle⟩ := hg hu ha
  have hquotient : |g a / s| ≤ 2 ^ 57 := by
    rw [abs_div, abs_of_pos hspos, div_le_iff₀ hspos]
    exact hzle.trans (by linarith)
  have hscore := hz.div hs hspos.ne' (abs_nearest_lt (by norm_num) hquotient)
  cases continuity <;> exact hscore

/-- The normal approximation takes the tail of the score. -/
theorem asymptoticTail_eq_score (tail : Float → Float) (hv : HasValue (tiedVariance n₁ n₂ t) v)
    (hpos : 0 < v) (u : Float) (continuity : Bool) :
    asymptoticTail tail u n₁ n₂ t continuity = .ok (tail (score u n₁ n₂ t continuity)) := by
  have hpositive : ¬ tiedVariance n₁ n₂ t ≤ 0 := by
    rw [hv.le_iff hasValue_zero]
    exact not_le.2 hpos
  simp [asymptoticTail, score, hpositive, hv.isFinite]

/-- **The normal approximation has a result.** It is the tail of a finite number. -/
theorem exists_asymptoticTail (tail : Float → Float) {u : Float} {a : ℝ} (hu : HasValue u a)
    (ha : |a| ≤ 2 ^ 53) (h1 : n₁ ≤ 2 ^ 53) (h2 : n₂ ≤ 2 ^ 53) (hcells : n₁ * n₂ ≤ 2 ^ 53)
    (hv : HasValue (tiedVariance n₁ n₂ t) v) (hv16 : 1 / 16 ≤ v) (continuity : Bool) :
    ∃ z : Float, z.isFinite = true ∧ asymptoticTail tail u n₁ n₂ t continuity = .ok (tail z) := by
  obtain ⟨f, -, hf⟩ := exists_monotone_score h1 h2 hcells hv hv16 continuity
  exact ⟨_, (hf hu ha).isFinite, asymptoticTail_eq_score tail hv (by linarith) u continuity⟩

end

end Campaign.RankSum
