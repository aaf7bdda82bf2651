import Campaign.Proofs.RankSum.Points

/-!
# Symmetries of the test

Only the order of the observations matters to the test: it does not know their values, nor where in
a sample they stand. When the samples change places, and the alternative with them, the p-value
stays the same double.

* `Opposite`: what the outcomes for two samples in either order have to do with each other;
* `SameOrder`: pairs of samples that compare alike, position by position.

## Main statements

* `test_swapped`: the test with the samples exchanged.
* `test_of_sameOrder`: the test of samples that compare alike.
-/

namespace Campaign.RankSum

open Binary64

/-- The choices that say the same when the samples change places. -/
def Config.swapped (c : Config) : Config := { c with alternative := c.alternative.swapped }

/-- The error that says the same when the samples change places. -/
def Error.swapped : Error → Error
  | emptySample n₁ n₂ => emptySample n₂ n₁
  | e => e

/-- What the outcomes for two samples in either order have to do with each other: the same error, or
the same p-value by the same method, and statistics that share the pairs. -/
inductive Opposite (pairs : ℕ) : Except Error Result → Except Error Result → Prop
  | error (e : Error) : Opposite pairs (.error e) (.error e.swapped)
  | ok (r s : Result) (a b : ℝ) (method : s.method = r.method) (pvalue : s.pvalue = r.pvalue)
      (alternative : s.alternative = r.alternative.swapped) (left : HasValue r.statistic a)
      (right : HasValue s.statistic b) (sum : a + b = pairs) : Opposite pairs (.ok r) (.ok s)

/-! ### Exchanging the samples -/

section

variable {n₁ n₂ : ℕ}

theorem NullDistribution.tabulate_comm (n₁ n₂ : ℕ) : tabulate n₂ n₁ = tabulate n₁ n₂ := by
  rw [tabulate, tabulate, Nat.min_comm n₂ n₁, Nat.max_comm n₂ n₁]

theorem NullDistribution.tabulate?_comm (n₁ n₂ : ℕ) : tabulate? n₂ n₁ = tabulate? n₁ n₂ := by
  rw [tabulate?, tabulate?, tabulate_comm, Nat.mul_comm]

theorem toFloat_mul_comm (h1 : 1 ≤ n₁) (h2 : 1 ≤ n₂) (h : n₁ * n₂ ≤ 2 ^ 53) :
    n₂.toFloat * n₁.toFloat = n₁.toFloat * n₂.toFloat := by
  have h1' : n₁ ≤ 2 ^ 53 := (Nat.le_mul_of_pos_right n₁ h2).trans h
  have h2' : n₂ ≤ 2 ^ 53 := (Nat.le_mul_of_pos_left n₂ h1).trans h
  have hleft := hasValue_natCast_mul (hasValue_natCast h2') (hasValue_natCast h1')
    (by rwa [Nat.mul_comm])
  rw [Nat.mul_comm] at hleft
  exact hleft.eq (hasValue_natCast_mul (hasValue_natCast h1') (hasValue_natCast h2') h)
    (by positivity)

theorem toFloat_add_comm (h : n₁ + n₂ ≤ 2 ^ 53) :
    n₂.toFloat + n₁.toFloat = n₁.toFloat + n₂.toFloat := by
  rw [toFloat_add (by omega), toFloat_add h, Nat.add_comm]

theorem Config.resolve_swapped (c : Config) (n₁ n₂ : ℕ) (hasTies : Bool) :
    c.swapped.resolve n₂ n₁ hasTies = c.resolve n₁ n₂ hasTies := by
  simp only [Config.resolve, Config.swapped, Nat.min_comm]

/-- With one p-value, what is reported is opposite if the statistics share the pairs. -/
theorem opposite_report (c : Config) (p : Method × Float) {u v : Float} {a b : ℝ} {pairs : ℕ}
    (hu : HasValue u a) (hv : HasValue v b) (h : a + b = pairs) :
    Opposite pairs (.ok (c.report u p)) (.ok (c.swapped.report v p)) := by
  refine .ok _ _ a b rfl ?_ rfl hu hv h
  obtain ⟨alternative, continuity, method⟩ := c
  cases alternative <;> rfl

variable (tail : Float → Float)

theorem asymptoticTail_comm (h1 : 1 ≤ n₁) (h2 : 1 ≤ n₂) (hcells : n₁ * n₂ ≤ 2 ^ 53)
    (hsize : n₁ + n₂ ≤ 2 ^ 53) (u t : Float) (continuity : Bool) :
    asymptoticTail tail u n₂ n₁ t continuity = asymptoticTail tail u n₁ n₂ t continuity := by
  rw [asymptoticTail, asymptoticTail, tiedVariance, tiedVariance, toFloat_mul_comm h1 h2 hcells,
    toFloat_add_comm hsize]

/-- The sizes of the samples may be exchanged. -/
theorem pValue_comm (h1 : 1 ≤ n₁) (h2 : 1 ≤ n₂) (hcells : n₁ * n₂ ≤ 2 ^ 53)
    (hsize : n₁ + n₂ ≤ 2 ^ 53) (u : Float) (r : PooledRanks) (c : Config) :
    pValue tail u n₂ n₁ r c.swapped = pValue tail u n₁ n₂ r c := by
  rw [pValue, pValue, c.resolve_swapped, NullDistribution.tabulate?_comm,
    asymptoticTail_comm tail h1 h2 hcells hsize]
  rfl

/-- The alternative asks about the same statistic. -/
theorem Alternative.choose_swapped (a : Alternative) {u v : Float} (h : max v u = max u v) :
    a.swapped.choose v u = a.choose u v := by
  cases a with
  | less => rfl
  | greater => rfl
  | twoSided => exact h

theorem max_halves_comm {m n : ℕ} (hm : m ≤ 2 ^ 53) (hn : n ≤ 2 ^ 53) :
    max (halves n) (halves m) = max (halves m) (halves n) := by
  rw [max_halves hn hm, max_halves hm hn, Nat.max_comm]

end

section

variable (tail : Float → Float) (c : Config)

theorem opposite_of_comparable {x y : List Float} (h : Comparable x y) (h' : Comparable y x)
    (hN : (x ++ y).length * ((x ++ y).length + 1) ≤ 2 ^ 53) :
    Opposite (x.length * y.length) (test tail x y c) (test tail y x c.swapped) := by
  obtain ⟨hsizes, -, -⟩ := sizes_le hN
  obtain ⟨hp, hp'⟩ := points_le h.finite hN
  have hperm : (y ++ x).Perm (x ++ y) := List.perm_append_comm
  have hpoints := points_add_points h.finite.append.1 h.finite.append.2
  have hx := List.length_pos_iff.2 h.left
  have hy := List.length_pos_iff.2 h.right
  have hsize : x.length + y.length ≤ 2 ^ 53 := by
    rw [← List.length_append]
    exact (Nat.le_mul_of_pos_right _ (Nat.succ_pos _)).trans hN
  have hties := PooledRanks.tieGroups_congr h'.finite h.finite (places_perm hperm)
  have hlength : (y ++ x).length = (x ++ y).length := hperm.length_eq
  obtain ⟨p, hpvalue, htest⟩ := exists_test_eq_of_comparable tail c h hN
  obtain ⟨p', hpvalue', htest'⟩ := exists_test_eq_of_comparable tail c.swapped h' (hlength ▸ hN)
  have hsame : p' = p := by
    rw [pValue_congr tail c.swapped hties, pValue_comm tail hx hy (by omega) hsize,
      Config.swapped, c.alternative.choose_swapped (max_halves_comm hp hp'),
      hpvalue] at hpvalue'
    exact (Except.ok.inj hpvalue').symm
  rw [htest, htest', hsame]
  refine opposite_report c p (hasValue_halves hp) (hasValue_halves hp') ?_
  rw [← add_div, ← Nat.cast_add, hpoints, Nat.cast_mul, Nat.cast_ofNat]
  ring

/-- **Exchanging the samples.** With the alternative exchanged too, the test fails for the same
reason, or it finds the same p-value by the same method, and the statistics of the two tests add up
to the number of pairs. -/
theorem test_swapped (x y : List Float)
    (hN : (x ++ y).length * ((x ++ y).length + 1) < 2 ^ 53) :
    Opposite (x.length * y.length) (test tail x y c) (test tail y x c.swapped) := by
  have hperm : (y ++ x).Perm (x ++ y) := List.perm_append_comm
  by_cases hempty : x = [] ∨ y = []
  · rw [test_of_empty tail c hempty, test_of_empty tail c.swapped hempty.symm]
    exact .error _
  rw [not_or] at hempty
  obtain ⟨hx, hy⟩ := hempty
  by_cases hfin : AllFinite (x ++ y)
  · have hfin' : AllFinite (y ++ x) := fun v hv => hfin v (hperm.subset hv)
    have hplaces := places_perm hperm
    by_cases hequal : AllEqual (x ++ y)
    · have hequal' : AllEqual (y ++ x) := by
        rwa [allEqual_iff_places hfin', hplaces, ← allEqual_iff_places hfin]
      rw [test_of_allEqual tail c hx hy hfin hequal,
        test_of_allEqual tail c.swapped hy hx hfin' hequal']
      exact .error _
    · have hequal' : ¬ AllEqual (y ++ x) := by
        rwa [allEqual_iff_places hfin', hplaces, ← allEqual_iff_places hfin]
      have h : Comparable x y := ⟨hx, hy, hfin, hequal⟩
      have h' : Comparable y x := ⟨hy, hx, hfin', hequal'⟩
      exact opposite_of_comparable tail c h h' hN.le
  · have hfin' : ¬ AllFinite (y ++ x) := fun h => hfin fun v hv => h v (hperm.symm.subset hv)
    rw [test_of_not_finite tail c hx hy hfin, test_of_not_finite tail c.swapped hy hx hfin']
    exact .error _

theorem test_swapped_of_tie :
    (3 + 2) * (3 + 2 + 1) < 2 ^ 53 ∧
      Opposite 6 (test normalUpperTail [-0.0, 3, 7] [0.0, 1] { continuity := true })
        (test normalUpperTail [0.0, 1] [-0.0, 3, 7]
          { alternative := .greater, continuity := true }) :=
  ⟨by decide, test_swapped normalUpperTail { continuity := true } [-0.0, 3, 7] [0.0, 1] (by decide)⟩

end

/-! ### Comparing alike -/

/-- A position in one of two samples. -/
abbrev Position (x y : List Float) := Fin x.length ⊕ Fin y.length

/-- The observation at a position. -/
def observation (x y : List Float) : Position x y → Float := Sum.elim x.get y.get

/-- Two pairs of samples compare alike: there is a bijection between the positions of the first
samples, and one between those of the second, under which any two observations are in the same
order, or equal, in both pairs. -/
def SameOrder (x y x' y' : List Float) : Prop :=
  ∃ (σ : Fin x.length ≃ Fin x'.length) (τ : Fin y.length ≃ Fin y'.length), ∀ i j : Position x y,
    (observation x y i < observation x y j ↔
      observation x' y' (i.map σ τ) < observation x' y' (j.map σ τ)) ∧
    (observation x y i == observation x y j) =
      (observation x' y' (i.map σ τ) == observation x' y' (j.map σ τ))

/-- In a list of pairs, the left sides compare like the right sides. -/
def Alike (l : List (Float × Float)) : Prop :=
  ∀ a ∈ l, ∀ b ∈ l, (a.1 < b.1 ↔ a.2 < b.2) ∧ (a.1 == b.1) = (a.2 == b.2)

section

variable {l m : List (Float × Float)}

theorem Alike.lower (h : Alike l) (hm : ∀ b ∈ m, b ∈ l) {a : Float × Float} (ha : a ∈ l) :
    RankSum.lower (m.map (·.1)) a.1 = RankSum.lower (m.map (·.2)) a.2 := by
  rw [RankSum.lower, List.countP_map, RankSum.lower, List.countP_map]
  refine List.countP_congr fun b hb => ?_
  simp only [Function.comp_apply, decide_eq_true_eq, (h b (hm b hb) a ha).1]

theorem Alike.equal (h : Alike l) (hm : ∀ b ∈ m, b ∈ l) {a : Float × Float} (ha : a ∈ l) :
    RankSum.equal (m.map (·.1)) a.1 = RankSum.equal (m.map (·.2)) a.2 := by
  rw [RankSum.equal, List.countP_map, RankSum.equal, List.countP_map]
  refine List.countP_congr fun b hb => ?_
  simp only [Function.comp_apply, (h b (hm b hb) a ha).2]

theorem Alike.places (h : Alike l) :
    RankSum.places (l.map (·.1)) = RankSum.places (l.map (·.2)) := by
  rw [RankSum.places, RankSum.places, List.map_map, List.map_map]
  exact congrArg _ (List.map_congr_left fun a ha => h.lower (fun b hb => hb) ha)

theorem Alike.points (h : Alike (l ++ m)) :
    RankSum.points (l.map (·.1)) (m.map (·.1)) = RankSum.points (l.map (·.2)) (m.map (·.2)) := by
  have hmem : ∀ b ∈ m, b ∈ l ++ m := fun b hb => List.mem_append_right l hb
  have hlower : l.map (RankSum.lower (m.map (·.1)) ∘ (·.1)) =
      l.map (RankSum.lower (m.map (·.2)) ∘ (·.2)) :=
    List.map_congr_left fun a ha => h.lower hmem (List.mem_append_left m ha)
  have hequal : l.map (RankSum.equal (m.map (·.1)) ∘ (·.1)) =
      l.map (RankSum.equal (m.map (·.2)) ∘ (·.2)) :=
    List.map_congr_left fun a ha => h.equal hmem (List.mem_append_left m ha)
  rw [RankSum.points, RankSum.points, wins_eq_sum, wins_eq_sum, draws_eq_sum, draws_eq_sum,
    List.map_map, List.map_map, List.map_map, List.map_map, hlower, hequal]

end

section

variable (tail : Float → Float) (c : Config)

/-- Samples whose observations stand in pairs that compare alike are tested alike. -/
theorem test_of_alike {l m : List (Float × Float)} (h : Alike (l ++ m))
    (hfin : AllFinite (l.map (·.1) ++ m.map (·.1))) (hfin' : AllFinite (l.map (·.2) ++ m.map (·.2)))
    (hN : (l ++ m).length * ((l ++ m).length + 1) ≤ 2 ^ 53) :
    test tail (l.map (·.1)) (m.map (·.1)) c = test tail (l.map (·.2)) (m.map (·.2)) c := by
  refine test_congr tail c (by simp) (by simp) hfin hfin' (by simpa using hN) h.points ?_
  rw [← List.map_append, ← List.map_append, h.places]

/-- **The order within the samples does not matter.** -/
theorem test_perm {x y x' y' : List Float} (hx : x.Perm x') (hy : y.Perm y')
    (hfin : AllFinite (x ++ y)) (hN : (x ++ y).length * ((x ++ y).length + 1) ≤ 2 ^ 53) :
    test tail x y c = test tail x' y' c := by
  have hperm : (x ++ y).Perm (x' ++ y') := hx.append hy
  refine test_congr tail c hx.length_eq hy.length_eq hfin (fun v hv => hfin v (hperm.symm.subset hv))
    hN ?_ (places_perm hperm)
  rw [points, points, wins_perm hx hy, draws_perm hx hy]

theorem ofFn_comp_perm {n m : ℕ} {α : Type} (σ : Fin n ≃ Fin m) (f : Fin m → α) :
    (List.ofFn (f ∘ σ)).Perm (List.ofFn f) := by
  obtain rfl : n = m := Fin.equiv_iff_eq.1 ⟨σ⟩
  exact Equiv.Perm.ofFn_comp_perm σ f

theorem SameOrder.exists_alike {x y x' y' : List Float} (h : SameOrder x y x' y') :
    ∃ l m, l.map (·.1) = x ∧ m.map (·.1) = y ∧ (l.map (·.2)).Perm x' ∧ (m.map (·.2)).Perm y' ∧
      Alike (l ++ m) := by
  obtain ⟨σ, τ, h⟩ := h
  refine ⟨List.ofFn fun i => (x.get i, x'.get (σ i)), List.ofFn fun j => (y.get j, y'.get (τ j)),
    ?_, ?_, ?_, ?_, ?_⟩
  · rw [List.map_ofFn]
    exact List.ofFn_get x
  · rw [List.map_ofFn]
    exact List.ofFn_get y
  · rw [List.map_ofFn]
    exact (ofFn_comp_perm σ x'.get).trans (.of_eq (List.ofFn_get x'))
  · rw [List.map_ofFn]
    exact (ofFn_comp_perm τ y'.get).trans (.of_eq (List.ofFn_get y'))
  · -- each pair holds the observations at one position
    have hposition : ∀ a ∈ (List.ofFn fun i => (x.get i, x'.get (σ i))) ++
        List.ofFn fun j => (y.get j, y'.get (τ j)), ∃ i : Position x y,
        a = (observation x y i, observation x' y' (i.map σ τ)) := by
      intro a ha
      rcases List.mem_append.1 ha with ha | ha
      · obtain ⟨i, rfl⟩ := List.mem_ofFn.1 ha
        exact ⟨.inl i, rfl⟩
      · obtain ⟨j, rfl⟩ := List.mem_ofFn.1 ha
        exact ⟨.inr j, rfl⟩
    intro a ha b hb
    obtain ⟨i, rfl⟩ := hposition a ha
    obtain ⟨j, rfl⟩ := hposition b hb
    exact h i j

/-- A function that keeps the order of finite values keeps how they compare. -/
theorem alike_of_increasing {l : List Float} {f : Float → Float} (hfin : AllFinite l)
    (hfin' : AllFinite (l.map f))
    (hf : ∀ v ∈ l, ∀ w ∈ l, (v < w → f v < f w) ∧ (v == w → f v == f w)) :
    Alike (l.map fun v => (v, f v)) := by
  intro a ha b hb
  obtain ⟨v, hv, rfl⟩ := List.mem_map.1 ha
  obtain ⟨w, hw, rfl⟩ := List.mem_map.1 hb
  have hlt := (hf v hv w hw).1
  have hgt := (hf w hw v hv).1
  have heq := (hf v hv w hw).2
  have hfv := hfin' _ (List.mem_map_of_mem hv)
  have hfw := hfin' _ (List.mem_map_of_mem hw)
  rw [Bool.eq_iff_iff]
  simp only [lt_iff_toReal (hfin v hv) (hfin w hw), lt_iff_toReal (hfin w hw) (hfin v hv),
    beq_iff_toReal (hfin v hv) (hfin w hw), lt_iff_toReal hfv hfw, lt_iff_toReal hfw hfv,
    beq_iff_toReal hfv hfw] at *
  rcases lt_trichotomy (toReal v) (toReal w) with h | h | h
  · simp only [h, hlt h, h.ne, (hlt h).ne, and_self]
  · simp only [h, heq h, lt_irrefl, and_self]
  · simp only [h.not_gt, (hgt h).not_gt, h.ne', (hgt h).ne', and_self]

/-- **Only the order matters.** Samples of finite observations that compare alike have the same
outcome. So have samples with their observations in another arrangement, and samples whose
observations have all gone through a strictly increasing function. -/
theorem test_of_sameOrder {x y : List Float} (hfin : AllFinite (x ++ y))
    (hN : (x ++ y).length * ((x ++ y).length + 1) < 2 ^ 53) :
    (∀ x' y', AllFinite (x' ++ y') → SameOrder x y x' y' →
      test tail x' y' c = test tail x y c) ∧
    (∀ x' y', x'.Perm x → y'.Perm y → test tail x' y' c = test tail x y c) ∧
    ∀ f : Float → Float, AllFinite ((x ++ y).map f) →
      (∀ v ∈ x ++ y, ∀ w ∈ x ++ y, (v < w → f v < f w) ∧ (v == w → f v == f w)) →
      test tail (x.map f) (y.map f) c = test tail x y c := by
  refine ⟨fun x' y' hfin' h => ?_, fun x' y' hx hy => ?_, fun f hfin' hf => ?_⟩
  · obtain ⟨l, m, rfl, rfl, hl, hm, halike⟩ := h.exists_alike
    have hfin₂ : AllFinite (l.map (·.2) ++ m.map (·.2)) := fun v hv =>
      hfin' v ((hl.append hm).subset hv)
    have hN₂ : (l ++ m).length * ((l ++ m).length + 1) ≤ 2 ^ 53 := by simpa using hN.le
    rw [test_of_alike tail c halike hfin hfin₂ hN₂]
    exact (test_perm tail c hl hm hfin₂ (by simpa using hN₂)).symm
  · exact (test_perm tail c hx.symm hy.symm hfin hN.le).symm
  · have halike := alike_of_increasing hfin hfin' hf
    have hleft : ∀ l : List Float, (l.map fun v => (v, f v)).map (·.1) = l := fun l => by
      rw [List.map_map]
      exact List.map_id l
    have hright : ∀ l : List Float, (l.map fun v => (v, f v)).map (·.2) = l.map f := fun l => by
      rw [List.map_map]
      rfl
    rw [List.map_append] at halike hfin'
    rw [← hleft x, ← hleft y] at hfin
    rw [← hright x, ← hright y] at hfin'
    have h := test_of_alike tail c halike hfin hfin' (by simpa using hN.le)
    rw [hleft, hleft, hright, hright] at h
    exact h.symm

theorem test_of_sameOrder_of_tie :
    AllFinite ([1, 3, -0.0] ++ [3, 0.0]) ∧ (3 + 2) * (3 + 2 + 1) < 2 ^ 53 ∧
      SameOrder [1, 3, -0.0] [3, 0.0] [10, -5, 20] [-5, 20] ∧
      test normalUpperTail [10, -5, 20] [-5, 20] {} =
        test normalUpperTail [1, 3, -0.0] [3, 0.0] {} ∧
      test normalUpperTail [-0.0, 1, 3] [0.0, 3] {} =
        test normalUpperTail [1, 3, -0.0] [3, 0.0] {} ∧
      test normalUpperTail ([1, 3, -0.0].map (2 * ·)) ([3, 0.0].map (2 * ·)) {} =
        test normalUpperTail [1, 3, -0.0] [3, 0.0] {} := by
  have hfin : AllFinite ([1, 3, -0.0] ++ [3, 0.0]) := by decide +kernel
  have horder : SameOrder [1, 3, -0.0] [3, 0.0] [10, -5, 20] [-5, 20] :=
    ⟨(Equiv.swap 1 2 : Equiv.Perm (Fin 3)), (Equiv.swap 0 1 : Equiv.Perm (Fin 2)),
      by decide +kernel⟩
  have hfin' : AllFinite ([10, -5, 20] ++ [-5, 20]) := by decide +kernel
  have hdouble : AllFinite (([1, 3, -0.0] ++ [3, 0.0]).map (2 * ·)) := by decide +kernel
  have hincreasing : ∀ v ∈ [1, 3, -0.0] ++ [3, 0.0], ∀ w ∈ [1, 3, -0.0] ++ [3, 0.0],
      (v < w → 2 * v < 2 * w) ∧ (v == w → 2 * v == 2 * w) := by decide +kernel
  have hperm : [-0.0, 1, 3].Perm [1, 3, (-0.0 : Float)] := (List.perm_append_singleton _ _).symm
  obtain ⟨hsame, hpermuted, hfunction⟩ := test_of_sameOrder normalUpperTail {} hfin (by decide)
  exact ⟨hfin, by decide, horder, hsame _ _ hfin' horder, hpermuted _ _ hperm (.swap ..),
    hfunction (2 * ·) hdouble hincreasing⟩

end

end Campaign.RankSum
