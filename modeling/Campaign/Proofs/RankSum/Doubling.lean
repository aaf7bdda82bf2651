import Campaign.Proofs.RankSum.Exact
import Campaign.Proofs.RankSum.Points

/-!
# Two-sided p-values

The two-sided test takes the tail of the larger of both statistics and doubles it. Whichever method
is used, the tail does not grow with the statistic; so the tail of the larger statistic is the
smaller of the two tails, and these are the p-values of the one-sided tests. Doubling a probability
is exact, and no one-sided p-value is changed by the clamping.

* `IsUpperTail`: what is asked of the tail of the normal distribution;
* `Falls`: a probability that does not grow with the number of halves.

## Main statements

* `exists_falls`: either method is a probability that does not grow with the statistic.
* `test_twoSided`: the two-sided p-value is twice the smaller one-sided one, and at most one.
-/

namespace Campaign.RankSum

open Binary64

/-- The upper tail of a distribution: a probability that does not grow. -/
structure IsUpperTail (tail : Float → Float) : Prop where
  anti : ∀ z w : Float, z.isFinite = true → w.isFinite = true → z ≤ w → tail w ≤ tail z
  unit : ∀ z : Float, z.isFinite = true → 0 ≤ tail z ∧ tail z ≤ 1

/-- For up to `b` halves, `t` is a probability that does not grow. -/
structure Falls (b : ℕ) (t : ℕ → Float) : Prop where
  isFinite : ∀ k ≤ b, (t k).isFinite = true
  unit : ∀ k ≤ b, 0 ≤ toReal (t k) ∧ toReal (t k) ≤ 1
  anti : AntitoneOn (fun k => toReal (t k)) (Set.Iic b)

/-! ### The tails of both methods -/

section

variable {n₁ n₂ : ℕ}

theorem floor_halves (k : ℕ) : ⌊((k : ℝ) / 2)⌋₊ = k / 2 := by
  have h := Nat.floor_div_natCast (k : ℝ) 2
  rwa [Nat.floor_natCast, Nat.cast_ofNat] at h

theorem falls_upperTail (h : (n₁ + n₂).choose n₁ ≤ 2 ^ 53) (hcells : n₁ * n₂ ≤ maxCells) :
    Falls (2 * (n₁ * n₂)) fun k => (NullDistribution.tabulate n₁ n₂).upperTail (halves k) := by
  have hmax : n₁ * n₂ ≤ 250000 := hcells
  have htail : ∀ k ≤ 2 * (n₁ * n₂),
      (NullDistribution.tabulate n₁ n₂).upperTail (halves k) = share n₁ n₂ (k / 2) := by
    intro k hk
    have hle : (k : ℝ) / 2 ≤ (n₁ * n₂ : ℕ) := by
      rw [div_le_iff₀' two_pos]
      exact_mod_cast hk
    rw [NullDistribution.upperTail_tabulate h (by omega) (hasValue_halves (by omega))
      (by positivity) hle, floor_halves]
    rfl
  have hshare := fun k => NullDistribution.exists_hasValue_share (countAtLeast_le n₁ n₂ k)
    (NullDistribution.choose_pos n₁ n₂) h
  refine ⟨fun k hk => ?_, fun k hk => ?_, fun j hj k hk hjk => ?_⟩
  · obtain ⟨p, hp, -⟩ := hshare (k / 2)
    rw [htail k hk]
    exact hp.isFinite
  · obtain ⟨p, hp, hunit⟩ := hshare (k / 2)
    rw [htail k hk, share, hp.toReal_eq]
    exact hunit
  · simp only [htail j hj, htail k hk]
    exact NullDistribution.toReal_div_mono (countAtLeast_anti (Nat.div_le_div_right hjk))
      (countAtLeast_le n₁ n₂ _) (NullDistribution.choose_pos n₁ n₂) h

theorem falls_score {tail : Float → Float} (htail : IsUpperTail tail) {t : Float} {v : ℝ} {b : ℕ}
    (h1 : n₁ ≤ 2 ^ 53) (h2 : n₂ ≤ 2 ^ 53) (hcells : n₁ * n₂ ≤ 2 ^ 53) (hb : b ≤ 2 ^ 53)
    (hv : HasValue (tiedVariance n₁ n₂ t) v) (hv16 : 1 / 16 ≤ v) (continuity : Bool) :
    Falls b fun k => tail (score (halves k) n₁ n₂ t continuity) := by
  obtain ⟨f, hmono, hf⟩ := exists_monotone_score h1 h2 hcells hv hv16 continuity
  have hscore : ∀ k ≤ b, HasValue (score (halves k) n₁ n₂ t continuity) (f (k / 2)) := by
    intro k hk
    have hle : (k : ℝ) / 2 ≤ 2 ^ 53 :=
      (half_le_self (Nat.cast_nonneg k)).trans (by exact_mod_cast hk.trans hb)
    exact hf (hasValue_halves (hk.trans hb)) (by rwa [abs_of_nonneg (by positivity)])
  have hunit := fun k hk => htail.unit _ (hscore k hk).isFinite
  have hfinite := fun k hk => isFinite_of_unit (hunit k hk).1 (hunit k hk).2
  refine ⟨hfinite, fun k hk => ?_, fun j hj k hk hjk => ?_⟩
  · have hvalue := hasValue_toReal (hfinite k hk)
    exact ⟨(hasValue_zero.le_iff hvalue).1 (hunit k hk).1,
      (hvalue.le_iff hasValue_one).1 (hunit k hk).2⟩
  · have hle : score (halves j) n₁ n₂ t continuity ≤ score (halves k) n₁ n₂ t continuity :=
      ((hscore j hj).le_iff (hscore k hk)).2
        (hmono (div_le_div_of_nonneg_right (by exact_mod_cast hjk) two_pos.le))
    exact ((hasValue_toReal (hfinite k hk)).le_iff (hasValue_toReal (hfinite j hj))).1
      (htail.anti _ _ (hscore j hj).isFinite (hscore k hk).isFinite hle)

end

section

variable (tail : Float → Float) {x y : List Float} (c : Config)

/-- **Either method is a probability that does not grow with the statistic.** Which of them is used
does not depend on the statistic. -/
theorem exists_falls (h : Comparable x y)
    (hN : (x ++ y).length * ((x ++ y).length + 1) ≤ 2 ^ 53) :
    ∃ (m : Method) (t : ℕ → Float),
      (∀ k, pValue tail (halves k) x.length y.length (PooledRanks.of x y) c = .ok (m, t k)) ∧
      ((m = .exact → (x.length + y.length).choose x.length ≤ 2 ^ 53) →
        (m = .asymptotic → IsUpperTail tail) → Falls (2 * (x.length * y.length)) t) := by
  simp only [pValue]
  cases htable : if c.resolve x.length y.length (PooledRanks.of x y).hasTies = .exact then
    NullDistribution.tabulate? x.length y.length else none with
  | some d =>
    split_ifs at htable
    obtain ⟨hcells, rfl⟩ := NullDistribution.of_tabulate?_eq_some htable
    exact ⟨.exact, _, fun k => rfl, fun hchoose _ => falls_upperTail (hchoose rfl) hcells⟩
  | none =>
    obtain ⟨hsizes, hx, hy⟩ := sizes_le hN
    obtain ⟨v, hv, hv16⟩ := exists_tiedVariance_of_comparable h hN
    simp only [asymptoticTail_eq_score tail hv (by linarith)]
    exact ⟨.asymptotic, _, fun k => rfl, fun _ htail =>
      falls_score (htail rfl) hx hy (by omega) (by omega) hv hv16 c.continuity⟩

/-! ### The two-sided test -/

/-- The p-value of one side is not changed by the clamping. -/
theorem Falls.oneSided {b k : ℕ} {t : ℕ → Float} (ht : Falls b t) (hk : k ≤ b) :
    HasValue (clamp 0 1 (t k)) (toReal (t k)) := by
  have hvalue := hasValue_toReal (ht.isFinite k hk)
  rwa [clamp_eq hvalue (ht.unit k hk).1 (ht.unit k hk).2]

/-- **The two-sided p-value.** The three tests have the same statistic and use the same method, and
the two-sided p-value is twice the smaller of the other two, or one if that is more. -/
theorem test_twoSided (h : Comparable x y)
    (hN : (x ++ y).length * ((x ++ y).length + 1) < 2 ^ 53) :
    ∃ less greater two,
      test tail x y { c with alternative := .less } = .ok less ∧
      test tail x y { c with alternative := .greater } = .ok greater ∧
      test tail x y { c with alternative := .twoSided } = .ok two ∧
      less.statistic = two.statistic ∧ greater.statistic = two.statistic ∧
      less.method = two.method ∧ greater.method = two.method ∧
      ((two.method = .exact → (x.length + y.length).choose x.length ≤ 2 ^ 53) →
        (two.method = .asymptotic → IsUpperTail tail) →
        (two.pvalue == min 1 (2 * min less.pvalue greater.pvalue)) = true ∧
        ∃ p q, HasValue less.pvalue p ∧ HasValue greater.pvalue q ∧
          HasValue two.pvalue (min 1 (2 * min p q))) := by
  have hpoints := points_add_points h.finite.append.1 h.finite.append.2
  obtain ⟨hpx, hpy⟩ := points_le h.finite hN.le
  obtain ⟨m, t, hp, hfalls⟩ := exists_falls tail c h hN.le
  have htest : ∀ a : Alternative, ∀ k,
      a.choose (halves (points x y)) (halves (points y x)) = halves k →
      test tail x y { c with alternative := a } =
        .ok (Config.report { c with alternative := a } (halves (points x y)) (m, t k)) := by
    intro a k hk
    rw [test_eq_of_comparable tail _ h hN.le, hk]
    exact congrArg (Except.map _) (hp k)
  refine ⟨_, _, _, htest .less (points y x) rfl, htest .greater (points x y) rfl,
    htest .twoSided (max (points x y) (points y x)) (max_halves hpx hpy), rfl, rfl, rfl, rfl,
    fun hchoose htail => ?_⟩
  have ht := hfalls hchoose htail
  have hi : points x y ≤ 2 * (x.length * y.length) := by omega
  have hj : points y x ≤ 2 * (x.length * y.length) := by omega
  have hless := ht.oneSided hj
  have hgreater := ht.oneSided hi
  have hk : max (points x y) (points y x) ≤ 2 * (x.length * y.length) := max_le hi hj
  have hunit := ht.unit _ hk
  have hmin : toReal (t (max (points x y) (points y x))) =
      min (toReal (t (points y x))) (toReal (t (points x y))) := by
    rw [min_comm]
    exact ht.anti.map_max hi hj
  have hlt : |2 * toReal (t (max (points x y) (points y x)))| < 2 ^ 1024 := by
    rw [abs_of_nonneg (by linarith [hunit.1])]
    calc 2 * toReal (t (max (points x y) (points y x))) ≤ 2 ^ 1 := by linarith [hunit.2]
      _ < 2 ^ 1024 := pow_lt_pow_right₀ one_lt_two (by norm_num)
  have hdouble := (hasValue_toReal (ht.isFinite _ hk)).mul_two hlt
  have htwo : HasValue (clamp 0 1 (t (max (points x y) (points y x)) * 2))
      (min 1 (2 * min (toReal (t (points y x))) (toReal (t (points x y))))) := by
    rw [clamp_eq_min hdouble (by linarith [hunit.1]), ← hmin]
    exact hasValue_one.min hdouble
  rw [hmin] at hlt
  have hright := hasValue_one.min ((hless.min hgreater).two_mul hlt)
  exact ⟨(htwo.beq_iff hright).2 rfl, _, _, hless, hgreater, htwo⟩

/-- The tail of the standard normal distribution at `-1` and at `1`, drawn out to a step. -/
def stepTail (z : Float) : Float := if z < 0 then 0.8413447460685429 else 0.15865525393145707

/-- A step down at zero falls, or stays. -/
theorem step_anti {below above : Float} (hbelow : below ≤ below) (habove : above ≤ above)
    (hdown : above ≤ below) {z w : Float} (h : z ≤ w) :
    (if w < 0 then below else above) ≤ if z < 0 then below else above := by
  have hz := isNaN_of_le h
  have hw := isNaN_right_of_le h
  have hlt : w < 0 → z < 0 := by
    rw [le_iff_toEReal hz hw] at h
    rw [lt_iff_toEReal hz hasValue_zero.isNaN, lt_iff_toEReal hw hasValue_zero.isNaN]
    exact h.trans_lt
  split_ifs with hw0 hz0 hz0
  · exact hbelow
  · exact absurd (hlt hw0) hz0
  · exact hdown
  · exact habove

theorem stepTail_anti {z w : Float} (h : z ≤ w) : stepTail w ≤ stepTail z :=
  step_anti (by decide +kernel) (by decide +kernel) (by decide +kernel) h

theorem isUpperTail_stepTail : IsUpperTail stepTail := by
  refine ⟨fun z w _ _ h => stepTail_anti h, fun z _ => ?_⟩
  unfold stepTail
  split_ifs <;> decide +kernel

theorem test_twoSided_of_stepTail :
    Comparable [1] [2] ∧ (1 + 1) * (1 + 1 + 1) < 2 ^ 53 ∧ IsUpperTail stepTail ∧
      ∃ less greater two,
        test stepTail [1] [2] { alternative := .less, method := .asymptotic } = .ok less ∧
        test stepTail [1] [2] { alternative := .greater, method := .asymptotic } = .ok greater ∧
        test stepTail [1] [2] { alternative := .twoSided, method := .asymptotic } = .ok two ∧
        (two.pvalue == min 1 (2 * min less.pvalue greater.pvalue)) = true := by
  have h : Comparable [1] [2] := ⟨by decide, by decide, by decide +kernel, by decide +kernel⟩
  obtain ⟨less, greater, two, hless, hgreater, htwo, -, -, -, -, hdouble⟩ :=
    test_twoSided stepTail { method := .asymptotic } h (by decide)
  have hchoose : (1 + 1).choose 1 ≤ 2 ^ 53 := by decide
  exact ⟨h, by decide, isUpperTail_stepTail, less, greater, two, hless, hgreater, htwo,
    (hdouble (fun _ => hchoose) fun _ => isUpperTail_stepTail).1⟩

end

end Campaign.RankSum
