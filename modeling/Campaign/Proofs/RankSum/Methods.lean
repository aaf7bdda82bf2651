import Campaign.Proofs.Guarded.Test
import Campaign.Proofs.RankSum.Doubling
import Campaign.Proofs.RankSum.FiniteVariance

/-!
# Which method was used, and what it depends on

A run uses the exact method if it resolves to it and the table of its sizes can be had; every other
run uses the normal approximation. So a result says which method to ask for to get it again, and a
table that is too large makes no difference to asking for the approximation at once. The exact
method never looks at the correction for continuity. For the approximation the correction lowers the
score, and with it the p-value rises, or stays.

* `Config.table?`: the table that a run takes its tail from, if it takes it from one.

## Main statements

* `test_course`: a run that has a result shows the course of every other run on its samples;
* `exists_table?_iff`: when there is a table;
* `test_method`: the method of a result, and the correction for continuity.
-/

namespace Campaign.RankSum

open Binary64

/-! ### The table of a run -/

/-- The table from which the tail is taken; without one it comes from the normal approximation. -/
def Config.table? (c : Config) (x y : List Float) : Option NullDistribution :=
  if c.resolve x.length y.length (PooledRanks.of x y).hasTies = .exact then
    NullDistribution.tabulate? x.length y.length
  else none

section

variable (tail : Float → Float) {x y : List Float} {c : Config}

theorem pValue_of_table {d : NullDistribution} (h : c.table? x y = some d) (u : Float) :
    pValue tail u x.length y.length (PooledRanks.of x y) c = .ok (.exact, d.upperTail u) := by
  rw [Config.table?] at h
  simp only [pValue, h]

theorem pValue_of_no_table (h : c.table? x y = none) (u : Float) :
    pValue tail u x.length y.length (PooledRanks.of x y) c =
      (asymptoticTail tail u x.length y.length (PooledRanks.of x y).tieTerm c.continuity).map
        (.asymptotic, ·) := by
  rw [Config.table?] at h
  simp only [pValue, h]
  cases asymptoticTail tail u x.length y.length (PooledRanks.of x y).tieTerm c.continuity <;> rfl

theorem resolve_eq_exact_iff (hfin : AllFinite (x ++ y)) :
    c.resolve x.length y.length (PooledRanks.of x y).hasTies = .exact ↔ c.IsExact x y := by
  refine ⟨fun h => ?_, fun h => resolve_of_isExact h hfin⟩
  cases hc : c.method with
  | exact => exact .inl hc
  | asymptotic => simp [Config.resolve, hc] at h
  | auto =>
    simp only [Config.resolve, hc, ite_eq_left_iff, reduceCtorEq, imp_false, not_not,
      Bool.and_eq_true, Bool.not_eq_true', decide_eq_true_eq] at h
    refine .inr ⟨hc, not_not.1 fun hties => ?_, h.2⟩
    rw [(PooledRanks.hasTies_iff hfin.numbers).2 hties] at h
    exact absurd h.1 (by decide)

/-- **A run has a table** if it is to be exact and the sizes have a table. -/
theorem exists_table?_iff (hfin : AllFinite (x ++ y)) :
    (∃ d, c.table? x y = some d) ↔
      c.IsExact x y ∧ ∃ d, NullDistribution.tabulate? x.length y.length = some d := by
  rw [← resolve_eq_exact_iff hfin]
  simp only [Config.table?, Option.ite_none_right_eq_some, exists_and_left]

/-- The exact method takes its tail from the table, if there is one. -/
theorem table?_exact (c : Config) (x y : List Float) :
    ({ c with method := .exact } : Config).table? x y =
      NullDistribution.tabulate? x.length y.length := if_pos rfl

theorem table?_asymptotic (c : Config) (x y : List Float) :
    ({ c with method := .asymptotic } : Config).table? x y = none :=
  if_neg (by simp [Config.resolve])

/-! ### The course of a run -/

theorem allFinite_of_checkInput (h : checkInput x y = .ok ()) : AllFinite (x ++ y) := by
  unfold checkInput at h
  split_ifs at h with hempty hany
  intro v hv
  have hnone := List.any_eq_false.1 (Bool.not_eq_true _ ▸ hany) v hv
  simpa using hnone

/-- **A run with a result** has passed the checks, which do not look at what is asked for; so it
shows the course of every other run on its samples. -/
theorem test_course {r : Result} (h : test tail x y c = .ok r) :
    AllFinite (x ++ y) ∧ ∀ c', test tail x y c' =
      (pValue tail (c'.alternative.choose (firstStatistic x y) (secondStatistic x y)) x.length
        y.length (PooledRanks.of x y) c').map (c'.report (firstStatistic x y)) := by
  rw [Guarded.test_eq] at h
  cases hcheck : checkInput x y with
  | error e =>
    rw [hcheck] at h
    cases h
  | ok _ =>
    cases htied : (PooledRanks.of x y).allTied with
    | true =>
      rw [hcheck, htied] at h
      cases h
    | false =>
      refine ⟨allFinite_of_checkInput hcheck, fun c' => ?_⟩
      rw [Guarded.test_eq, hcheck, htied]
      change (pValue tail (c'.alternative.choose (firstStatistic x y) (secondStatistic x y))
        x.length y.length (PooledRanks.of x y) c' >>= fun p =>
          .ok (c'.report (firstStatistic x y) p)) = _
      generalize pValue tail _ _ _ _ c' = p
      cases p <;> rfl

theorem test_of_pValue_eq {c' : Config} (halternative : c.alternative = c'.alternative)
    (hp : ∀ u, pValue tail u x.length y.length (PooledRanks.of x y) c =
      pValue tail u x.length y.length (PooledRanks.of x y) c') :
    test tail x y c = test tail x y c' := by
  have hreport : c.report = c'.report := by
    funext u p
    rw [Config.report, Config.report, halternative]
  rw [Guarded.test_eq, Guarded.test_eq, hreport, halternative]
  simp only [hp]

/-- Nothing but the alternative, the correction and the table makes a difference. -/
theorem test_congr_table {c' : Config} (halternative : c.alternative = c'.alternative)
    (hcontinuity : c.continuity = c'.continuity) (htable : c.table? x y = c'.table? x y) :
    test tail x y c = test tail x y c' := by
  refine test_of_pValue_eq tail halternative fun u => ?_
  cases h : c'.table? x y with
  | some d => rw [pValue_of_table tail h, pValue_of_table tail (htable.trans h)]
  | none => rw [pValue_of_no_table tail h, pValue_of_no_table tail (htable.trans h), hcontinuity]

/-- With a table the correction makes no difference either. -/
theorem test_continuity_of_table {d : NullDistribution} (h : c.table? x y = some d) (b : Bool) :
    test tail x y { c with continuity := b } = test tail x y c := by
  have hsame : ({ c with continuity := b } : Config).table? x y = some d := h
  refine test_of_pValue_eq tail rfl fun u => ?_
  rw [pValue_of_table tail h, pValue_of_table tail hsame]

/-- The method of a result, and the table that it was taken from. -/
theorem method_of_test {r : Result} (h : test tail x y c = .ok r) :
    (∃ d, c.table? x y = some d) ∧ r.method = .exact ∨
      c.table? x y = none ∧ r.method = .asymptotic := by
  have hrun := h.symm.trans ((test_course tail h).2 c)
  cases htable : c.table? x y with
  | some d =>
    rw [pValue_of_table tail htable] at hrun
    obtain rfl := Except.ok.inj hrun
    exact .inl ⟨⟨d, rfl⟩, rfl⟩
  | none =>
    rw [pValue_of_no_table tail htable] at hrun
    generalize asymptoticTail tail _ _ _ _ _ = p at hrun
    cases p with
    | error e => cases hrun
    | ok p =>
      obtain rfl := Except.ok.inj hrun
      exact .inr ⟨rfl, rfl⟩

/-- **Asking for the method of a result** leads to the same table. -/
theorem table?_method {r : Result} (h : test tail x y c = .ok r) :
    ({ c with method := r.method } : Config).table? x y = c.table? x y := by
  rcases method_of_test tail h with ⟨⟨d, hd⟩, hmethod⟩ | ⟨hnone, hmethod⟩
  · have hsizes : NullDistribution.tabulate? x.length y.length = some d := by
      rw [Config.table?, Option.ite_none_right_eq_some] at hd
      exact hd.2
    rw [hd, hmethod, table?_exact, hsizes]
  · rw [hnone, hmethod, table?_asymptotic]

end

/-! ### The correction for continuity -/

/-- The p-value grows with the tail. -/
theorem report_pvalue_le {p q : Float} (h : p ≤ q) (c : Config) (u : Float) (m : Method) :
    (c.report u (m, p)).pvalue ≤ (c.report u (m, q)).pvalue := by
  unfold Config.report
  refine clamp_le_clamp ?_
  split_ifs
  · refine (lifts_mul hasValue_two two_pos).le (fun a b hab => ?_) h
    exact mul_le_mul_of_nonneg_right hab zero_le_two
  · exact h

theorem isNaN_choose (a : Alternative) {u v : Float} (hu : u.isNaN = false)
    (hv : v.isNaN = false) : (a.choose u v).isNaN = false := by
  cases a with
  | less => exact hv
  | greater => exact hu
  | twoSided => exact isNaN_max hu hv

/-- The normal approximation has a result only if the variance is a positive number. -/
theorem exists_hasValue_of_asymptoticTail {tail : Float → Float} {u p t : Float} {n₁ n₂ : ℕ}
    {b : Bool} (h : asymptoticTail tail u n₁ n₂ t b = .ok p) :
    ∃ v, HasValue (tiedVariance n₁ n₂ t) v ∧ 0 < v := by
  have hopen : asymptoticTail tail u n₁ n₂ t b =
      if tiedVariance n₁ n₂ t ≤ 0 || !(tiedVariance n₁ n₂ t).isFinite then .error .degenerate
      else .ok (tail (score u n₁ n₂ t b)) := rfl
  rw [hopen] at h
  split_ifs at h with hguard
  simp only [Bool.or_eq_true, decide_eq_true_eq, Bool.not_eq_true', not_or,
    Bool.not_eq_false] at hguard
  have hvalue := hasValue_toReal hguard.2
  refine ⟨_, hvalue, ?_⟩
  by_contra hle
  exact hguard.1 ((hvalue.le_iff hasValue_zero).2 (not_lt.1 hle))

variable {tail : Float → Float} {x y : List Float} {c : Config}

/-- **The correction for continuity does not lower the p-value** of the normal approximation. -/
theorem test_continuity_le {r : Result} (h : test tail x y c = .ok r)
    (htable : c.table? x y = none) (htail : ∀ z w : Float, z ≤ w → tail w ≤ tail z)
    (a : Alternative) :
    ∃ r₀ p, test tail x y { c with alternative := a, continuity := false } = .ok r₀ ∧
      test tail x y { c with alternative := a, continuity := true } =
        .ok { r₀ with pvalue := p } ∧
      r₀.pvalue ≤ p := by
  obtain ⟨hfin, hcourse⟩ := test_course tail h
  obtain ⟨v, hv, hpos⟩ : ∃ v,
      HasValue (tiedVariance x.length y.length (PooledRanks.of x y).tieTerm) v ∧ 0 < v := by
    have hrun := h.symm.trans (hcourse c)
    rw [pValue_of_no_table tail htable] at hrun
    cases hp : asymptoticTail tail (c.alternative.choose (firstStatistic x y)
        (secondStatistic x y)) x.length y.length (PooledRanks.of x y).tieTerm c.continuity with
    | error e =>
      rw [hp] at hrun
      cases hrun
    | ok p => exact exists_hasValue_of_asymptoticTail hp
  set u := a.choose (firstStatistic x y) (secondStatistic x y) with hu
  have hnumber : u.isNaN = false := by
    obtain ⟨hfirst, hsecond⟩ := isNaN_statistics hfin.numbers hv.isFinite
    exact isNaN_choose a hfirst hsecond
  have hrun (b : Bool) : test tail x y { c with alternative := a, continuity := b } =
      .ok (Config.report { c with alternative := a } (firstStatistic x y)
        (.asymptotic, tail (score u x.length y.length (PooledRanks.of x y).tieTerm b))) := by
    have hnone : ({ c with alternative := a, continuity := b } : Config).table? x y = none := htable
    rw [hcourse, pValue_of_no_table tail hnone, asymptoticTail_eq_score tail hv hpos]
    rfl
  have hscore := score_continuity_le hv hpos hnumber
  exact ⟨_, _, hrun false, hrun true, report_pvalue_le (htail _ _ hscore) _ _ _⟩

/-! ### Methods -/

/-- **The method of a result.** Asking for it gives the result again. It is the exact one if that
was asked for or chosen and the sizes have a table, so a table beyond the bound makes no difference
to asking for the approximation. The correction for continuity does not change an exact result, and
does not lower the p-value of the approximation. -/
theorem test_method (tail : Float → Float) (x y : List Float) (c : Config) :
    (∀ r, test tail x y c = .ok r →
      test tail x y { c with method := r.method } = .ok r ∧
      (r.method = .exact ∨ r.method = .asymptotic) ∧
      (r.method = .exact ↔
        c.IsExact x y ∧ ∃ d, NullDistribution.tabulate? x.length y.length = some d) ∧
      (r.method = .exact → ∀ b, test tail x y { c with continuity := b } = .ok r) ∧
      (r.method = .asymptotic → (∀ z w : Float, z ≤ w → tail w ≤ tail z) → ∀ a, ∃ r₀ p,
        test tail x y { c with alternative := a, continuity := false } = .ok r₀ ∧
        test tail x y { c with alternative := a, continuity := true } =
          .ok { r₀ with pvalue := p } ∧
        r₀.pvalue ≤ p)) ∧
    (250000 < x.length * y.length →
      test tail x y { c with method := .exact } = test tail x y { c with method := .asymptotic }) := by
  refine ⟨fun r h => ?_, fun hlarge => ?_⟩
  · obtain ⟨hfin, -⟩ := test_course tail h
    have hsame : test tail x y { c with method := r.method } = test tail x y c :=
      test_congr_table tail rfl rfl (table?_method tail h)
    refine ⟨hsame.trans h, ?_⟩
    rw [← exists_table?_iff hfin]
    rcases method_of_test tail h with ⟨⟨d, hd⟩, hmethod⟩ | ⟨hnone, hmethod⟩
    · refine ⟨.inl hmethod, by simp [hd, hmethod], fun _ b => ?_, fun hother => ?_⟩
      · rw [test_continuity_of_table tail hd, h]
      · rw [hmethod] at hother
        cases hother
    · refine ⟨.inr hmethod, by simp [hnone, hmethod], fun hother => ?_, fun _ htail a =>
        test_continuity_le h hnone htail a⟩
      rw [hmethod] at hother
      cases hother
  · have hsizes : NullDistribution.tabulate? x.length y.length = none := if_pos hlarge
    refine test_congr_table tail rfl rfl ?_
    rw [table?_exact, table?_asymptotic, hsizes]

/-- The tail of the standard normal distribution at `-0.5 / √(2 / 3)` and at `0`, drawn out to a
step. -/
def centralTail (z : Float) : Float := if z < 0 then 0.72985431269629 else 0.5

theorem centralTail_anti {z w : Float} (h : z ≤ w) : centralTail w ≤ centralTail z :=
  step_anti (by decide +kernel) (by decide +kernel) (by decide +kernel) h

/-- A statistic that is its mean, with a variance of `2 / 3`: the correction for continuity moves the
score from `0` to `-0.5 / √(2 / 3)`. -/
theorem test_method_of_centralTail :
    (∀ z w : Float, z ≤ w → centralTail w ≤ centralTail z) ∧
      ∃ r, test centralTail [1, 3] [2] { method := .asymptotic } = .ok r ∧
        r.method = .asymptotic ∧
        ∃ r₀ p,
          test centralTail [1, 3] [2] { alternative := .greater, method := .asymptotic } = .ok r₀ ∧
          test centralTail [1, 3] [2]
              { alternative := .greater, continuity := true, method := .asymptotic } =
            .ok { r₀ with pvalue := p } ∧
          r₀.pvalue ≤ p := by
  have htail : ∀ z w : Float, z ≤ w → centralTail w ≤ centralTail z := fun _ _ => centralTail_anti
  obtain ⟨hempty, -⟩ | ⟨-, hfin, -⟩ | ⟨-, -, hequal, -⟩ | ⟨-, r, hr⟩ :=
    test_cases centralTail { method := .asymptotic } [1, 3] [2] (by decide)
  · exact absurd hempty (by decide)
  · exact absurd (by decide +kernel) hfin
  · exact absurd hequal (by decide +kernel)
  · have hmethod : r.method = .asymptotic := by
      rcases method_of_test centralTail hr with ⟨⟨d, hd⟩, -⟩ | ⟨-, hmethod⟩
      · rw [table?_asymptotic {}] at hd
        cases hd
      · exact hmethod
    obtain ⟨-, -, -, -, hcontinuity⟩ :=
      (test_method centralTail [1, 3] [2] { method := .asymptotic }).1 r hr
    exact ⟨htail, r, hr, hmethod, hcontinuity hmethod htail .greater⟩

end Campaign.RankSum
