import Campaign.Proofs.RankSum.Statistic

/-!
# The normal approximation never degenerates

If not all pooled values are equal, no group of equal values takes up the whole pooled sample, and
the tie term stays so far below the cube of its size that no rounding brings the variance down to
zero.

## Main statements

* `exists_hasValue_tieTerm`: the tie term in doubles, with a bound.
* `exists_hasValue_tiedVariance`: the variance is positive.
-/

namespace Campaign.RankSum

open Binary64

/-! ### The tie term -/

/-- The contribution of one group of equal values. -/
theorem exists_hasValue_cube_sub {t : ℕ} (h2 : 2 ≤ t) (ht : t * t ≤ 2 ^ 53) :
    ∃ s, HasValue (t.toFloat * t.toFloat * t.toFloat - t.toFloat) s ∧
      1 ≤ s ∧ s ≤ (t : ℝ) ^ 3 * growth := by
  have hsmall : t ≤ 2 ^ 53 := (Nat.le_mul_self t).trans ht
  have hvalue := hasValue_natCast hsmall
  have hsquare := hasValue_natCast_mul hvalue hvalue ht
  have hcube : ((t * t : ℕ) : ℝ) * t = (t : ℝ) ^ 3 := by push_cast; ring
  have htwo : (2 : ℝ) ≤ t := by exact_mod_cast h2
  have hone : 1 ≤ (t : ℝ) ^ 3 := one_le_pow₀ (by linarith)
  have habove : (t + 1 : ℕ) ≤ (t : ℝ) ^ 3 := by
    push_cast
    nlinarith [mul_nonneg (sub_nonneg.2 htwo) (sub_nonneg.2 htwo)]
  have hbelow : (t : ℝ) ^ 3 ≤ 2 ^ 106 := by
    have h1 : (t : ℝ) ≤ 2 ^ 53 := by exact_mod_cast hsmall
    have h2 : ((t * t : ℕ) : ℝ) ≤ 2 ^ 53 := by exact_mod_cast ht
    calc (t : ℝ) ^ 3 = ((t * t : ℕ) : ℝ) * t := hcube.symm
      _ ≤ 2 ^ 53 * 2 ^ 53 := mul_le_mul h2 h1 (Nat.cast_nonneg t) (by positivity)
      _ = 2 ^ 106 := by rw [← pow_add]
  have hround : |nearest ((t : ℝ) ^ 3)| < 2 ^ 1024 :=
    abs_nearest_lt (k := 106) (by norm_num) (by rwa [abs_of_nonneg (by linarith)])
  have hsucc : t + 1 ≤ t * t := by
    have := Nat.mul_le_mul_right t h2
    omega
  have hproduct := hsquare.mul hvalue (by rwa [hcube])
  rw [hcube] at hproduct
  have hge : ((t + 1 : ℕ) : ℝ) ≤ nearest ((t : ℝ) ^ 3) :=
    le_nearest (onGrid_natCast (hsucc.trans ht)) habove
  have hle : nearest ((t : ℝ) ^ 3) - t ≤ nearest ((t : ℝ) ^ 3) := sub_le_self _ (Nat.cast_nonneg t)
  have hone' : 1 ≤ nearest ((t : ℝ) ^ 3) - t := by
    push_cast at hge
    linarith
  have hlow : 1 ≤ nearest (nearest ((t : ℝ) ^ 3) - t) :=
    le_nearest onGrid_one hone'
  have hhigh : nearest (nearest ((t : ℝ) ^ 3) - t) ≤ nearest ((t : ℝ) ^ 3) :=
    nearest_le (onGrid_nearest _) hle
  refine ⟨_, hproduct.sub hvalue ?_, hlow, hhigh.trans (nearest_le_mul_growth hone)⟩
  rw [abs_of_nonneg (by linarith)]
  exact hhigh.trans_lt ((le_abs_self _).trans_lt hround)

theorem sum_cubes_le (l : List ℕ) {m : ℕ} (h : ∀ t ∈ l, t ≤ m) :
    (l.map fun t => t ^ 3).sum ≤ m ^ 2 * l.sum := by
  induction l with
  | nil => simp
  | cons t l ih =>
    have ht := h t List.mem_cons_self
    have ih := ih fun s hs => h s (List.mem_cons_of_mem t hs)
    rw [List.map_cons, List.sum_cons, List.sum_cons, Nat.mul_add]
    have hcube : t ^ 3 ≤ m ^ 2 * t := by
      rw [pow_succ]
      exact Nat.mul_le_mul_right t (Nat.pow_le_pow_left ht 2)
    omega

theorem sum_map_cube (l : List ℕ) :
    (l.map fun t : ℕ => (t : ℝ) ^ 3 * growth).sum = ((l.map fun t => t ^ 3).sum : ℕ) * growth := by
  induction l with
  | nil => simp
  | cons t l ih =>
    rw [List.map_cons, List.sum_cons, ih, List.map_cons, List.sum_cons]
    push_cast
    ring

/-- The bound on the tie term in exact arithmetic leaves room for every rounding. -/
theorem cubes_growth_le {l : List ℕ} {m : ℕ} (hm : (m + 1) * (m + 2) ≤ 2 ^ 53)
    (hle : ∀ t ∈ l, t ≤ m) (hsum : l.sum ≤ m + 1) (hlength : 2 * l.length ≤ m + 1) :
    (l.map fun t : ℕ => (t : ℝ) ^ 3 * growth).sum * growth ^ l.length ≤ (m + 1) * ((m + 1) * m) := by
  have hcubes : (((l.map fun t => t ^ 3).sum : ℕ) : ℝ) ≤ m ^ 2 * (m + 1) := by
    exact_mod_cast (sum_cubes_le l hle).trans (Nat.mul_le_mul_left _ hsum)
  -- all roundings together add at most `m · (m + 1)` to `m² · (m + 1)`
  have hroom : (m : ℝ) * (m + 3) ≤ 2 ^ 53 := by
    have hle : m * (m + 3) ≤ (m + 1) * (m + 2) := by nlinarith
    exact_mod_cast hle.trans hm
  have hpow : growth ^ (l.length + 1) ≤ 1 + (m + 3) / 2 ^ 53 := by
    have hlength' : 2 * ((l.length + 1 : ℕ) : ℝ) ≤ m + 3 := by exact_mod_cast (by omega)
    have htwice : (m + 1) * 2 ≤ 2 ^ 53 := (Nat.mul_le_mul_left _ (by omega)).trans hm
    have hsmall : l.length + 1 ≤ 2 ^ 52 := by omega
    refine (growth_pow_le hsmall).trans ?_
    gcongr
  have hpos : 0 ≤ growth ^ (l.length + 1) := pow_nonneg (zero_le_one.trans one_le_growth) _
  calc (l.map fun t : ℕ => (t : ℝ) ^ 3 * growth).sum * growth ^ l.length
    _ = ((l.map fun t => t ^ 3).sum : ℕ) * growth ^ (l.length + 1) := by rw [sum_map_cube]; ring
    _ ≤ m ^ 2 * (m + 1) * (1 + (m + 3) / 2 ^ 53) := by gcongr
    _ = m ^ 2 * (m + 1) + m * (m + 1) * (m * (m + 3) / 2 ^ 53) := by ring
    _ ≤ m ^ 2 * (m + 1) + m * (m + 1) * 1 := by
        gcongr
        exact div_le_one_of_le₀ hroom (by positivity)
    _ = (m + 1) * ((m + 1) * m) := by ring

section

variable {x y : List Float} {m : ℕ}

theorem exists_hasValue_tieTerm (hfin : AllFinite (x ++ y)) (hne : ¬ AllEqual (x ++ y))
    (hm : (x ++ y).length = m + 1) (hN : (m + 1) * (m + 2) ≤ 2 ^ 53) :
    ∃ t, HasValue (PooledRanks.of x y).tieTerm t ∧ 0 ≤ t ∧ t ≤ (m + 1) * ((m + 1) * m) := by
  have hle : ∀ t ∈ (PooledRanks.of x y).tieGroups, t ≤ m := by
    intro t ht
    have := PooledRanks.lt_of_mem_tieGroups hfin.numbers hne ht
    omega
  have hsum := PooledRanks.sum_tieGroups_le x y
  have hlength := PooledRanks.two_mul_length_tieGroups_le x y
  rw [hm] at hsum hlength
  have hbound := cubes_growth_le hN hle hsum hlength
  have hlt : ((m : ℝ) + 1) * ((m + 1) * m) < 2 ^ 1024 := by
    have h1 : ((m : ℝ) + 1) ≤ 2 ^ 53 := by
      exact_mod_cast (Nat.le_mul_of_pos_right _ (Nat.succ_pos _)).trans hN
    have h2 : ((m : ℝ) + 1) * m ≤ 2 ^ 53 := by
      exact_mod_cast (Nat.mul_le_mul_left _ (by omega)).trans hN
    calc ((m : ℝ) + 1) * ((m + 1) * m) ≤ 2 ^ 53 * 2 ^ 53 := by gcongr
      _ < 2 ^ 1024 := by rw [← pow_add]; exact pow_lt_pow_right₀ one_lt_two (by norm_num)
  obtain ⟨t, ht, h0, hle'⟩ := exists_hasValue_sum (PooledRanks.of x y).tieGroups
    (fun t ht => exists_hasValue_cube_sub (PooledRanks.mem_tieGroups.1 ht).1
      ((Nat.mul_le_mul (hle t ht) (hle t ht)).trans (le_trans (by nlinarith) hN)))
    (hbound.trans_lt hlt)
  exact ⟨t, ht, h0, hle'.trans hbound⟩

end

/-! ### The variance -/

section

variable {n₁ n₂ m : ℕ} {t : Float} {r : ℝ}

theorem hasValue_size (hm : n₁ + n₂ = m + 1) (hN : (m + 1) * (m + 2) ≤ 2 ^ 53) :
    HasValue (n₁.toFloat + n₂.toFloat) ((m + 1 : ℕ) : ℝ) := by
  have hle : m + 1 ≤ 2 ^ 53 := (Nat.le_mul_of_pos_right _ (Nat.succ_pos _)).trans hN
  rw [toFloat_add (by omega), hm]
  exact hasValue_natCast hle

/-- The correction for ties takes less than the size off. -/
theorem exists_hasValue_correction (h1 : 1 ≤ n₁) (h2 : 1 ≤ n₂) (hm : n₁ + n₂ = m + 1)
    (hN : (m + 1) * (m + 2) ≤ 2 ^ 53) (ht : HasValue t r) (h0 : 0 ≤ r)
    (hr : r ≤ (m + 1) * ((m + 1) * m)) :
    ∃ b, HasValue (n₁.toFloat + n₂.toFloat + 1 -
        t / ((n₁.toFloat + n₂.toFloat) * (n₁.toFloat + n₂.toFloat - 1))) b ∧
      1 ≤ b ∧ b ≤ 2 ^ 53 := by
  have hsize := hasValue_size hm hN
  have hm1 : 1 ≤ m := by omega
  have hm2 : m + 2 ≤ 2 ^ 53 := (Nat.le_mul_of_pos_left _ (Nat.succ_pos _)).trans hN
  have hpred : HasValue (n₁.toFloat + n₂.toFloat - 1) m := by
    have hcast : ((m + 1 : ℕ) : ℝ) - 1 = m := by push_cast; ring
    have hle : m ≤ 2 ^ 53 := by omega
    have := hsize.sub_exact hasValue_one (hcast ▸ onGrid_natCast hle)
      (hcast ▸ natCast_lt_overflow hle)
    rwa [hcast] at this
  have hsucc : HasValue (n₁.toFloat + n₂.toFloat + 1) ((m + 2 : ℕ) : ℝ) := by
    have hcast : ((m + 1 : ℕ) : ℝ) + 1 = (m + 2 : ℕ) := by push_cast; ring
    have := hsize.add_exact hasValue_one (hcast ▸ onGrid_natCast hm2)
      (hcast ▸ natCast_lt_overflow hm2)
    rwa [hcast] at this
  have hproduct := hasValue_natCast_mul hsize hpred
    ((Nat.mul_le_mul_left _ (by omega)).trans hN)
  have hpos : (0 : ℝ) < ((m + 1) * m : ℕ) := by exact_mod_cast Nat.mul_pos (by omega) hm1
  have hquotient : r / ((m + 1) * m : ℕ) ≤ (m + 1 : ℕ) := by
    rw [div_le_iff₀ hpos]
    push_cast
    exact hr
  have hq0 := nearest_nonneg (div_nonneg h0 hpos.le)
  have hq1 := nearest_le (onGrid_natCast (by omega)) hquotient
  have hq := ht.div hproduct hpos.ne' (by
    rw [abs_of_nonneg hq0]
    exact hq1.trans_lt ((le_abs_self _).trans_lt (natCast_lt_overflow (by omega))))
  have hlow : (1 : ℝ) ≤ (m + 2 : ℕ) - nearest (r / ((m + 1) * m : ℕ)) := by
    push_cast at hq1 ⊢
    linarith
  have hhigh : (m + 2 : ℕ) - nearest (r / ((m + 1) * m : ℕ)) ≤ (2 : ℝ) ^ 53 :=
    (sub_le_self _ hq0).trans (by exact_mod_cast hm2)
  refine ⟨_, hsucc.sub hq ?_, ?_, ?_⟩
  · refine abs_nearest_lt (k := 53) (by norm_num) ?_
    rwa [abs_of_nonneg (zero_le_one.trans hlow)]
  · exact le_nearest onGrid_one hlow
  · exact nearest_le (onGrid_pow 53) hhigh

/-- **The variance is positive and finite.** -/
theorem exists_hasValue_tiedVariance (h1 : 1 ≤ n₁) (h2 : 1 ≤ n₂) (hm : n₁ + n₂ = m + 1)
    (hN : (m + 1) * (m + 2) ≤ 2 ^ 53) (ht : HasValue t r) (h0 : 0 ≤ r)
    (hr : r ≤ (m + 1) * ((m + 1) * m)) :
    ∃ v, HasValue (tiedVariance n₁ n₂ t) v ∧ 1 / 16 ≤ v := by
  obtain ⟨b, hb, hb1, hb2⟩ := exists_hasValue_correction h1 h2 hm hN ht h0 hr
  have hcells : n₁ * n₂ ≤ 2 ^ 53 := by
    have : n₁ * n₂ ≤ (m + 1) * (m + 2) := Nat.mul_le_mul (by omega) (by omega)
    exact this.trans hN
  have hsize : m + 1 ≤ 2 ^ 53 := (Nat.le_mul_of_pos_right _ (Nat.succ_pos _)).trans hN
  have hproduct := hasValue_natCast_mul (hasValue_natCast (n := n₁) (by omega))
    (hasValue_natCast (n := n₂) (by omega)) hcells
  have htwelve : HasValue 12 12 := by
    have := hasValue_natCast (n := 12) (by norm_num)
    rwa [Nat.cast_ofNat] at this
  have hone : (1 : ℝ) ≤ (n₁ * n₂ : ℕ) := by exact_mod_cast Nat.mul_pos h1 h2
  have hgrid : OnGrid (1 / 16) := by
    have := onGrid_zpow (e := -4) (by norm_num)
    norm_num at this ⊢
    exact this
  have hlow : (1 : ℝ) / 16 ≤ (n₁ * n₂ : ℕ) / 12 := by linarith
  have hhigh : ((n₁ * n₂ : ℕ) : ℝ) / 12 ≤ 2 ^ 53 :=
    (div_le_self (by linarith) (by norm_num)).trans (by exact_mod_cast hcells)
  have ha1 := le_nearest hgrid hlow
  have ha2 := nearest_le (onGrid_pow 53) hhigh
  have ha := hproduct.div htwelve (by norm_num) (by
    refine abs_nearest_lt (k := 53) (by norm_num) ?_
    rwa [abs_of_nonneg (by linarith)])
  set a := nearest (((n₁ * n₂ : ℕ) : ℝ) / 12)
  have hab : 1 / 16 ≤ a * b := by nlinarith
  refine ⟨_, ha.mul hb ?_, le_nearest hgrid hab⟩
  refine abs_nearest_lt (k := 106) (by norm_num) ?_
  rw [abs_of_nonneg (by linarith)]
  calc a * b ≤ 2 ^ 53 * 2 ^ 53 := by gcongr
    _ = 2 ^ 106 := by rw [← pow_add]

end

end Campaign.RankSum
