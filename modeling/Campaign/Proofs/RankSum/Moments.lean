import Campaign.Proofs.RankSum.Outcome
import Campaign.Proofs.RankSum.Population

/-!
# The moments of the midranks

A run of equal values takes the mean of the ranks that it spans, so the ranks keep their sum, and
the sum of their squared deviations falls short of that of `1, …, N` by the contribution of the run
to the tie term. The mean and the variance of a rank sum drawn without replacement follow from
these two sums; they are what the normal approximation computes with.

* `spread g start ts`: a function summed over the doubled ranks of runs of the sizes `ts`;
* `rankChoices`, `drawnSum`: the ways to draw some of the ranks, and the sum of those drawn;
* `correctedVariance`: the formula of the variance, in doubles or in exact numbers.

## Main statements

* `sum_map_ranks`: sums over the ranks, from the sizes of the runs;
* `hasValue_tieTerm`: the tie term is exact;
* `ranks_moments`: the two sums, and the moments of the statistic.
-/

namespace Campaign.RankSum

open Binary64 Finset
open scoped BigOperators

/-- The variance of the statistic of samples of the sizes `n₁` and `n₂`, corrected by the tie
term `t`. -/
def correctedVariance {α : Type} [Add α] [Sub α] [Mul α] [Div α] [OfNat α 1] [OfNat α 12]
    (n₁ n₂ t : α) : α :=
  n₁ * n₂ / 12 * (n₁ + n₂ + 1 - t / ((n₁ + n₂) * (n₁ + n₂ - 1)))

/-- The ways to draw `n` of the positions of the ranks. -/
def rankChoices (ranks : List Float) (n : ℕ) : Finset (Finset (Fin ranks.length)) :=
  selections (Fin ranks.length) n

/-- The sum of the ranks at the positions that were drawn. -/
noncomputable def drawnSum (ranks : List Float) (S : Finset (Fin ranks.length)) : ℝ :=
  ∑ i ∈ S, toReal ranks[i]

/-! ### Sums over the ranks of runs -/

/-- A function summed over the doubled ranks of runs of the given sizes, of which the first starts
behind `start` values. -/
noncomputable def spread (g : ℕ → ℝ) : ℕ → List ℕ → ℝ
  | _, [] => 0
  | start, t :: ts => t * g (2 * start + t + 1) + spread g (start + t) ts

theorem spread_half (start : ℕ) (ts : List ℕ) :
    spread (fun k => k / 2) start ts = ts.sum * (2 * start + ts.sum + 1) / 2 := by
  induction ts generalizing start with
  | nil => simp [spread]
  | cons t ts ih =>
    rw [spread, ih, List.sum_cons]
    push_cast
    ring

/-- What a run takes off twelve times the sum of squares does not depend on where it stands. -/
theorem spread_sq (c : ℝ) (start : ℕ) (ts : List ℕ) :
    12 * spread (fun k => (k / 2 - c) ^ 2) start ts + (ts.map fun t : ℕ => (t : ℝ) ^ 3 - t).sum =
      12 * ts.sum * (start - c) ^ 2 + 12 * (start - c) * ts.sum * (ts.sum + 1) +
        2 * ts.sum * (ts.sum + 1) * (2 * ts.sum + 1) := by
  induction ts generalizing start with
  | nil => simp [spread]
  | cons t ts ih =>
    have ih := ih (start + t)
    rw [spread, List.map_cons, List.sum_cons, List.sum_cons]
    push_cast at ih ⊢
    linear_combination ih

theorem isFinite_of_mem_rankRuns {start : ℕ} {runs : List (List Placed)}
    (h : 2 * (start + runs.flatten.length) + 1 ≤ 2 ^ 53) {p : ℕ × Float}
    (hp : p ∈ rankRuns start runs) : p.2.isFinite = true := by
  induction runs generalizing start with
  | nil => cases hp
  | cons run runs ih =>
    rw [List.flatten_cons, List.length_append] at h
    rcases List.mem_append.1 hp with hp | hp
    · obtain ⟨a, ha, rfl⟩ := List.mem_map.1 hp
      exact (hasValue_midrank (List.length_pos_of_mem ha) (by omega)).isFinite
    · exact ih (by omega) hp

theorem length_rankRuns (start : ℕ) (runs : List (List Placed)) :
    (rankRuns start runs).length = runs.flatten.length := by
  induction runs generalizing start with
  | nil => rfl
  | cons run runs ih => simp [rankRuns, ih]

theorem sum_map_rankRuns (g : ℝ → ℝ) {start : ℕ} {runs : List (List Placed)}
    (h : 2 * (start + runs.flatten.length) + 1 ≤ 2 ^ 53) :
    ((rankRuns start runs).map fun p => g (toReal p.2)).sum =
      spread (fun k => g (k / 2)) start (runs.map List.length) := by
  induction runs generalizing start with
  | nil => rfl
  | cons run runs ih =>
    rw [List.flatten_cons, List.length_append] at h
    have hrun : ∀ a ∈ run, g (toReal (midrank start run.length)) =
        g ((2 * start + run.length + 1 : ℕ) / 2) := by
      intro a ha
      have hvalue : HasValue (midrank start run.length) _ :=
        hasValue_midrank (List.length_pos_of_mem ha) (by omega)
      rw [hvalue.toReal_eq]
    rw [rankRuns, List.map_append, List.sum_append, ih (by omega), List.map_cons, spread,
      List.map_map]
    congr 1
    simp only [Function.comp_def]
    rw [List.map_congr_left hrun, List.map_const', List.sum_replicate, nsmul_eq_mul]

namespace PooledRanks

variable (x y : List Float)

/-- The sizes of the runs of a pooled sample. -/
def runSizes : List ℕ := (tieRuns (sortPlaced (x ++ y))).map List.length

theorem sum_runSizes : (runSizes x y).sum = (x ++ y).length := by
  rw [runSizes, ← List.length_flatten, tieRuns_flatten, length_sortPlaced]

theorem tieGroups_eq : (PooledRanks.of x y).tieGroups = (runSizes x y).filter (1 < ·) := rfl

theorem ranks_perm : (PooledRanks.of x y).ranks.Perm
    ((rankRuns 0 (tieRuns (sortPlaced (x ++ y)))).map (·.2)) :=
  (List.mergeSort_perm _ _).map _

variable {x y}

theorem flatten_length_le (hN : (x ++ y).length < 2 ^ 52) :
    2 * (0 + (tieRuns (sortPlaced (x ++ y))).flatten.length) + 1 ≤ 2 ^ 53 := by
  rw [tieRuns_flatten, length_sortPlaced]
  omega

/-- **Sums over the ranks** depend on the sizes of the runs only. -/
theorem sum_map_ranks (g : ℝ → ℝ) (hN : (x ++ y).length < 2 ^ 52) :
    ((PooledRanks.of x y).ranks.map fun r => g (toReal r)).sum =
      spread (fun k => g (k / 2)) 0 (runSizes x y) := by
  rw [((ranks_perm x y).map _).sum_eq, List.map_map]
  exact sum_map_rankRuns g (flatten_length_le hN)

theorem allFinite_ranks (hN : (x ++ y).length < 2 ^ 52) : AllFinite (PooledRanks.of x y).ranks := by
  intro r hr
  obtain ⟨p, hp, rfl⟩ := List.mem_map.1 ((ranks_perm x y).subset hr)
  exact isFinite_of_mem_rankRuns (flatten_length_le hN) hp

/-! ### The tie term -/

/-- The contribution of one group of equal values, where its cube is held exactly. -/
theorem cube_sub_eq {t : ℕ} (h2 : 2 ≤ t) (ht : t ^ 3 ≤ 2 ^ 53) :
    t.toFloat * t.toFloat * t.toFloat - t.toFloat = (t ^ 3 - t).toFloat := by
  have hle : t ≤ t ^ 3 := Nat.le_self_pow (by norm_num) t
  have hsquare : t * t ≤ 2 ^ 53 := by nlinarith
  have hcube : t * t * t = t ^ 3 := by ring
  have hvalue := hasValue_natCast (n := t) (hle.trans ht)
  have hproduct := hasValue_natCast_mul (hasValue_natCast_mul hvalue hvalue hsquare) hvalue
    (by rwa [hcube])
  have hcast : ((t * t * t : ℕ) : ℝ) - t = (t ^ 3 - t : ℕ) := by rw [hcube, Nat.cast_sub hle]
  have hsmall : t ^ 3 - t ≤ 2 ^ 53 := (Nat.sub_le _ _).trans ht
  have hdiff := hproduct.sub_exact hvalue (hcast ▸ onGrid_natCast hsmall)
    (hcast ▸ natCast_lt_overflow hsmall)
  rw [hcast] at hdiff
  have hpos : 0 < t ^ 3 - t := by
    have : 2 * t ≤ t ^ 3 := by nlinarith [Nat.mul_le_mul h2 h2]
    omega
  exact hdiff.eq (hasValue_natCast hsmall) (by exact_mod_cast hpos.ne')

theorem sum_cubes_tieGroups_le (x y : List Float) :
    ((PooledRanks.of x y).tieGroups.map fun t => t ^ 3).sum ≤ (x ++ y).length ^ 3 := by
  have hsum := sum_tieGroups_le x y
  have hle : ∀ t ∈ (PooledRanks.of x y).tieGroups, t ≤ (x ++ y).length := fun t ht =>
    (List.single_le_sum (fun _ _ => Nat.zero_le _) t ht).trans hsum
  calc ((PooledRanks.of x y).tieGroups.map fun t => t ^ 3).sum
    _ ≤ (x ++ y).length ^ 2 * (PooledRanks.of x y).tieGroups.sum := sum_cubes_le _ hle
    _ ≤ (x ++ y).length ^ 2 * (x ++ y).length := Nat.mul_le_mul_left _ hsum
    _ = (x ++ y).length ^ 3 := (pow_succ _ _).symm

/-- **The tie term is exact** where the cube of the size is. -/
theorem hasValue_tieTerm (hN : (x ++ y).length ^ 3 ≤ 2 ^ 53) :
    HasValue (PooledRanks.of x y).tieTerm
      (((PooledRanks.of x y).tieGroups.map fun t => t ^ 3 - t).sum : ℕ) := by
  have hcubes := (sum_cubes_tieGroups_le x y).trans hN
  have hterms : ((PooledRanks.of x y).tieGroups.map fun t => t ^ 3 - t).sum ≤ 2 ^ 53 :=
    (List.sum_le_sum fun t _ => Nat.sub_le _ _).trans hcubes
  have hexact : ∀ t ∈ (PooledRanks.of x y).tieGroups,
      t.toFloat * t.toFloat * t.toFloat - t.toFloat = (t ^ 3 - t).toFloat := by
    intro t ht
    have hle := List.single_le_sum (fun _ _ => Nat.zero_le _) (t ^ 3)
      (List.mem_map_of_mem (f := fun t => t ^ 3) ht)
    exact cube_sub_eq (mem_tieGroups.1 ht).1 (hle.trans hcubes)
  unfold tieTerm
  rw [List.map_congr_left hexact]
  by_cases hnil : (PooledRanks.of x y).tieGroups = []
  · rw [hnil, List.map_nil, List.map_nil, List.sum_nil, Nat.cast_zero]
    exact hasValue_negZero
  · have hsum := sum_toFloat (l := (PooledRanks.of x y).tieGroups.map fun t => t ^ 3 - t)
      (by simpa using hnil) hterms
    rw [List.map_map] at hsum
    change HasValue (sum ((PooledRanks.of x y).tieGroups.map
      (Nat.toFloat ∘ fun t => t ^ 3 - t))) _
    rw [hsum]
    exact hasValue_natCast hterms

/-- Runs of one value contribute nothing. -/
theorem sum_cubes_filter (ts : List ℕ) :
    ((((ts.filter (1 < ·)).map fun t => t ^ 3 - t).sum : ℕ) : ℝ) =
      (ts.map fun t : ℕ => (t : ℝ) ^ 3 - t).sum := by
  induction ts with
  | nil => simp
  | cons t ts ih =>
    have hcast : ((t ^ 3 - t : ℕ) : ℝ) = (t : ℝ) ^ 3 - t := by
      rw [Nat.cast_sub (Nat.le_self_pow (by norm_num) t), Nat.cast_pow]
    rw [List.filter_cons]
    split_ifs with h
    · rw [List.map_cons, List.sum_cons, Nat.cast_add, ih, hcast, List.map_cons, List.sum_cons]
    · have ht : t ≤ 1 := by simpa using h
      rw [ih, List.map_cons, List.sum_cons, ← hcast, right_eq_add]
      interval_cases t <;> simp

theorem toReal_tieTerm (hN : (x ++ y).length ^ 3 ≤ 2 ^ 53) :
    toReal (PooledRanks.of x y).tieTerm =
      ((runSizes x y).map fun t : ℕ => (t : ℝ) ^ 3 - t).sum := by
  rw [(hasValue_tieTerm hN).toReal_eq, tieGroups_eq, sum_cubes_filter]

/-! ### The two sums -/

section

variable {n₁ n₂ : ℕ} (hx : x.length = n₁) (hy : y.length = n₂) (hN : (n₁ + n₂) ^ 3 < 2 ^ 53)

include hN in
theorem size_lt : n₁ + n₂ < 2 ^ 52 := by
  by_contra hle
  have := Nat.pow_le_pow_left (not_lt.1 hle) 3
  omega

include hx hy hN

theorem sum_ranks :
    ((PooledRanks.of x y).ranks.map toReal).sum = (n₁ + n₂) * (n₁ + n₂ + 1) / 2 := by
  have hlength : (x ++ y).length = n₁ + n₂ := by rw [List.length_append, hx, hy]
  have h := sum_map_ranks (x := x) (y := y) (fun r => r) (by rw [hlength]; exact size_lt hN)
  rw [spread_half, sum_runSizes, hlength] at h
  rw [h]
  push_cast
  ring

/-- **The sum of the squared deviations** falls short by the tie term. -/
theorem sum_sq_ranks :
    12 * ((PooledRanks.of x y).ranks.map fun r => (toReal r - (n₁ + n₂ + 1) / 2) ^ 2).sum =
      (n₁ + n₂) ^ 3 - (n₁ + n₂) - toReal (PooledRanks.of x y).tieTerm := by
  have hlength : (x ++ y).length = n₁ + n₂ := by rw [List.length_append, hx, hy]
  have h := sum_map_ranks (x := x) (y := y) (fun r => (r - ((n₁ : ℝ) + n₂ + 1) / 2) ^ 2)
    (by rw [hlength]; exact size_lt hN)
  have hsq := spread_sq ((n₁ + n₂ + 1) / 2) 0 (runSizes x y)
  rw [sum_runSizes, hlength] at hsq
  rw [h, toReal_tieTerm (by rw [hlength]; exact hN.le)]
  push_cast at hsq
  linear_combination hsq

end

/-! ### The moments of what is drawn -/

/-- The deviations of the ranks from a number. -/
noncomputable def deviation (c : ℝ) (ranks : List Float) (i : Fin ranks.length) : ℝ :=
  toReal ranks[i] - c

section

variable {n₁ n₂ : ℕ} {ranks : List Float} {t : ℝ} (hlength : ranks.length = n₁ + n₂)
  (hsum : (ranks.map toReal).sum = (n₁ + n₂) * (n₁ + n₂ + 1) / 2)

theorem card_of_mem_rankChoices {S : Finset (Fin ranks.length)} (hS : S ∈ rankChoices ranks n₁) :
    #S = n₁ :=
  (mem_powersetCard.1 hS).2

theorem card_rankChoices (hlength : ranks.length = n₁ + n₂) :
    #(rankChoices ranks n₁) = (n₁ + n₂).choose n₁ :=
  card_selections (by rw [Fintype.card_fin, hlength])

theorem drawnSum_eq (n₂ : ℕ) {S : Finset (Fin ranks.length)} (hS : S ∈ rankChoices ranks n₁) :
    drawnSum ranks S =
      ∑ i ∈ S, deviation ((n₁ + n₂ + 1) / 2) ranks i + n₁ * (n₁ + n₂ + 1) / 2 := by
  have hcard := card_of_mem_rankChoices hS
  simp only [deviation, sum_sub_distrib, sum_const, hcard, nsmul_eq_mul, drawnSum]
  ring

include hlength hsum

theorem sum_deviation : ∑ i, deviation ((n₁ + n₂ + 1) / 2) ranks i = 0 := by
  have h : ∑ i : Fin ranks.length, toReal ranks[i] = (ranks.map toReal).sum :=
    Fin.sum_univ_fun_getElem ranks toReal
  simp only [deviation, sum_sub_distrib, sum_const, card_univ, Fintype.card_fin, hlength,
    nsmul_eq_mul, h, hsum]
  push_cast
  ring

theorem expect_drawnSum (h1 : 1 ≤ n₁) :
    𝔼 S ∈ rankChoices ranks n₁, drawnSum ranks S = n₁ * (n₁ + n₂ + 1) / 2 := by
  have hsize : (n₁ : ℝ) + n₂ ≠ 0 := by exact_mod_cast (show n₁ + n₂ ≠ 0 by omega)
  have h : ∑ i : Fin ranks.length, toReal ranks[i] = (ranks.map toReal).sum :=
    Fin.sum_univ_fun_getElem ranks toReal
  have hcard : Fintype.card (Fin ranks.length) = n₁ + n₂ := by rw [Fintype.card_fin, hlength]
  simp only [rankChoices, drawnSum]
  rw [expect_sum_selections hcard h1, h, hsum]
  field_simp

theorem variance_drawnSum (h1 : 1 ≤ n₁) (h2 : 1 ≤ n₂)
    (hsq : 12 * (ranks.map fun r => (toReal r - (n₁ + n₂ + 1) / 2) ^ 2).sum =
      (n₁ + n₂) ^ 3 - (n₁ + n₂) - t) :
    𝔼 S ∈ rankChoices ranks n₁, (drawnSum ranks S - n₁ * (n₁ + n₂ + 1) / 2) ^ 2 =
      correctedVariance (n₁ : ℝ) n₂ t := by
  have hdeviation : ∑ i, deviation ((n₁ + n₂ + 1) / 2) ranks i ^ 2 =
      (ranks.map fun r => (toReal r - (n₁ + n₂ + 1) / 2) ^ 2).sum :=
    Fin.sum_univ_fun_getElem ranks fun r => (toReal r - ((n₁ : ℝ) + n₂ + 1) / 2) ^ 2
  have hsize : (n₁ : ℝ) + n₂ ≠ 0 := by exact_mod_cast (show n₁ + n₂ ≠ 0 by omega)
  have hpred : (n₁ : ℝ) + n₂ - 1 ≠ 0 := by
    have : ((n₁ + n₂ - 1 : ℕ) : ℝ) ≠ 0 := by exact_mod_cast (show n₁ + n₂ - 1 ≠ 0 by omega)
    rwa [Nat.cast_sub (by omega), Nat.cast_add, Nat.cast_one] at this
  calc 𝔼 S ∈ rankChoices ranks n₁, (drawnSum ranks S - n₁ * (n₁ + n₂ + 1) / 2) ^ 2
    _ = 𝔼 S ∈ rankChoices ranks n₁, (∑ i ∈ S, deviation ((n₁ + n₂ + 1) / 2) ranks i) ^ 2 := by
        refine expect_congr rfl fun S hS => ?_
        rw [drawnSum_eq n₂ hS, add_sub_cancel_right]
    _ = n₁ * n₂ * (∑ i, deviation ((n₁ + n₂ + 1) / 2) ranks i ^ 2) /
          ((n₁ + n₂) * (n₁ + n₂ - 1)) :=
        expect_sq_selections (by rw [Fintype.card_fin, hlength]) h1 h2
          (sum_deviation hlength hsum)
    _ = correctedVariance (n₁ : ℝ) n₂ t := by
        rw [hdeviation, correctedVariance]
        generalize (ranks.map fun r => (toReal r - ((n₁ : ℝ) + n₂ + 1) / 2) ^ 2).sum = q at hsq ⊢
        field_simp
        linear_combination hsq

/-- **The mean of the statistic.** -/
theorem expect_statistic (h1 : 1 ≤ n₁) :
    𝔼 S ∈ rankChoices ranks n₁, (drawnSum ranks S - n₁ * (n₁ + 1) / 2) = n₁ * n₂ / 2 := by
  have hne : (rankChoices ranks n₁).Nonempty := by
    rw [← card_pos, card_rankChoices hlength]
    exact Nat.choose_pos (Nat.le_add_right n₁ n₂)
  rw [expect_sub_distrib, expect_const hne, expect_drawnSum hlength hsum h1]
  ring

end

/-! ### Both together -/

/-- **The moments of the midranks.** As exact numbers, the ranks keep the sum of `1, …, N`, and the
tie term is what the sum of their squared deviations falls short by. Over all ways to draw `n₁` of
the ranks, the statistic has the mean `n₁n₂/2`, and the rank sum has the variance that the formula
of the normal approximation gives in exact numbers. -/
theorem ranks_moments {n₁ n₂ : ℕ} (hx : x.length = n₁) (hy : y.length = n₂) (h1 : 1 ≤ n₁)
    (h2 : 1 ≤ n₂) (hN : (n₁ + n₂) ^ 3 < 2 ^ 53) :
    (AllFinite (of x y).ranks ∧ (of x y).ranks.length = n₁ + n₂ ∧
      (of x y).tieTerm.isFinite = true) ∧
    ((of x y).ranks.map toReal).sum = (n₁ + n₂) * (n₁ + n₂ + 1) / 2 ∧
    12 * ((of x y).ranks.map fun a => (toReal a - (n₁ + n₂ + 1) / 2) ^ 2).sum =
      (n₁ + n₂) ^ 3 - (n₁ + n₂) - toReal (of x y).tieTerm ∧
    #(rankChoices (of x y).ranks n₁) = (n₁ + n₂).choose n₁ ∧
    𝔼 S ∈ rankChoices (of x y).ranks n₁, (drawnSum (of x y).ranks S - n₁ * (n₁ + 1) / 2) =
      n₁ * n₂ / 2 ∧
    HasValue (n₁.toFloat * n₂.toFloat / 2) (n₁ * n₂ / 2) ∧
    𝔼 S ∈ rankChoices (of x y).ranks n₁,
        (drawnSum (of x y).ranks S -
          𝔼 T ∈ rankChoices (of x y).ranks n₁, drawnSum (of x y).ranks T) ^ 2 =
      correctedVariance (n₁ : ℝ) n₂ (toReal (of x y).tieTerm) ∧
    tiedVariance n₁ n₂ (of x y).tieTerm =
      correctedVariance n₁.toFloat n₂.toFloat (of x y).tieTerm := by
  have hsize : (x ++ y).length = n₁ + n₂ := by rw [List.length_append, hx, hy]
  have hlt := size_lt hN
  have hlength : (of x y).ranks.length = n₁ + n₂ := by
    rw [(ranks_perm x y).length_eq, List.length_map, length_rankRuns, tieRuns_flatten,
      length_sortPlaced, hsize]
  have hsum := sum_ranks hx hy hN
  have hsq := sum_sq_ranks hx hy hN
  have hcells : n₁ * n₂ ≤ 2 ^ 53 := by
    have := mul_succ_le_of_cube hN
    nlinarith
  have hfinite : AllFinite (of x y).ranks := allFinite_ranks (by rw [hsize]; exact hlt)
  have hterm := (hasValue_tieTerm (x := x) (y := y) (by rw [hsize]; exact hN.le)).isFinite
  refine ⟨⟨hfinite, hlength, hterm⟩, hsum, hsq, card_rankChoices hlength,
    expect_statistic hlength hsum h1, hasValue_mean (by omega) (by omega) hcells, ?_, rfl⟩
  rw [expect_drawnSum hlength hsum h1]
  exact variance_drawnSum hlength hsum h1 h2 hsq

/-- Two tied pairs: the tie term takes its part of `60`. -/
theorem ranks_moments_of_pairs :
    ([1, 2] : List Float).length = 2 ∧ (2 + 2) ^ 3 < 2 ^ 53 ∧
      ((PooledRanks.of [1, 2] [2, 1]).ranks.map toReal).sum = 10 ∧
      12 * ((PooledRanks.of [1, 2] [2, 1]).ranks.map fun a => (toReal a - 5 / 2) ^ 2).sum =
        60 - toReal (PooledRanks.of [1, 2] [2, 1]).tieTerm ∧
      𝔼 S ∈ rankChoices (PooledRanks.of [1, 2] [2, 1]).ranks 2,
        (drawnSum (PooledRanks.of [1, 2] [2, 1]).ranks S - 3) = 2 := by
  have hx : ([1, 2] : List Float).length = 2 := rfl
  have hy : ([2, 1] : List Float).length = 2 := rfl
  obtain ⟨-, hsum, hsq, -, hmean, -⟩ :=
    ranks_moments hx hy (by decide) (by decide) (by decide)
  have hleast : ((2 : ℕ) : ℝ) * ((2 : ℕ) + 1) / 2 = 3 := by norm_num
  rw [hleast] at hmean
  refine ⟨rfl, by decide, hsum.trans (by norm_num), ?_, hmean.trans (by norm_num)⟩
  convert hsq using 1
  · norm_num
  · norm_num

end PooledRanks

end Campaign.RankSum
