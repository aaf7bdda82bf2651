import Campaign.Proofs.RankSum.Outcome
import Campaign.Proofs.RankSum.Places

/-!
# The test as a function of points and places

A pair that a sample wins gives it two points, and a drawn pair gives one point to each sample. The
statistics of the two samples are their points halved: no rounding takes place, and a zero is always
the positive one, so these are equations between doubles. All else that the test needs to know of
the values is their places.

* `points`: the points of one sample against another;
* `halves`: the double of a number of halves.

## Main statements

* `exists_test_eq_of_comparable`: the course of a test, from the points of both samples.
* `test_congr`: samples with the same points and places are tested alike.
-/

namespace Campaign.RankSum

open Binary64

/-- Two points for each pair that `x` wins, and one for each draw. -/
def points (x y : List Float) : ℕ := 2 * wins x y + draws x y

/-- So many halves. -/
def halves (n : ℕ) : Float := n.toFloat / 2

/-! ### Halves -/

theorem hasValue_halves {n : ℕ} (h : n ≤ 2 ^ 53) : HasValue (halves n) (n / 2) :=
  hasValue_toFloat_div_two h

theorem halves_zero : halves 0 = 0 := by decide

/-- A number of halves is written by one double only, if zero has no sign. -/
theorem eq_halves {u : Float} {n : ℕ} (hn : n ≤ 2 ^ 53) (hu : HasValue u (n / 2))
    (h0 : n = 0 → u = 0) : u = halves n := by
  obtain rfl | hne := Nat.eq_zero_or_pos n
  · rw [h0 rfl, halves_zero]
  · exact hu.eq (hasValue_halves hn) (by positivity)

theorem max_halves {m n : ℕ} (hm : m ≤ 2 ^ 53) (hn : n ≤ 2 ^ 53) :
    max (halves m) (halves n) = halves (max m n) := by
  change (if halves m ≤ halves n then halves n else halves m) = _
  have hle : halves m ≤ halves n ↔ m ≤ n := by
    rw [(hasValue_halves hm).le_iff (hasValue_halves hn), div_le_div_iff_of_pos_right two_pos,
      Nat.cast_le]
  simp only [hle]
  split_ifs with h
  · rw [max_eq_right h]
  · rw [max_eq_left (Nat.le_of_not_le h)]

/-- A difference of halves, if it is not the difference of two zeros. -/
theorem sub_halves_eq {u v : Float} {m n : ℕ} (hm : m ≤ 2 ^ 53) (hle : n ≤ m) (h0 : m ≠ 0)
    (hu : HasValue u (m / 2)) (hv : HasValue v (n / 2)) : u - v = halves (m - n) := by
  have hsub : ((m - n : ℕ) : ℤ) = (m : ℤ) - n := Nat.cast_sub hle
  refine eq_halves (by omega) ?_ fun hzero => ?_
  · rw [← Int.cast_natCast] at hu hv
    have := hu.sub_halves hv (by rw [← hsub]; exact isSmall_natCast.2 (by omega))
    rwa [← hsub, Int.cast_natCast] at this
  · obtain rfl : m = n := by omega
    exact hu.sub_eq_zero hv (by positivity)

/-! ### Points -/

section

variable {x y : List Float}

/-- **Two points are given for each pair.** -/
theorem points_add_points (hx : AllFinite x) (hy : AllFinite y) :
    points x y + points y x = 2 * (x.length * y.length) := by
  have hpairs := wins_add_draws_add_wins hx hy
  have hpairs' := wins_add_draws_add_wins hy hx
  rw [Nat.mul_comm] at hpairs'
  unfold points
  omega

theorem wins_perm {x' y' : List Float} (hx : x.Perm x') (hy : y.Perm y') :
    wins x y = wins x' y' := by
  have hlower : lower y = lower y' := funext fun v => hy.countP_eq _
  rw [wins_eq_sum, wins_eq_sum, hlower]
  exact (hx.map _).sum_eq

theorem draws_perm {x' y' : List Float} (hx : x.Perm x') (hy : y.Perm y') :
    draws x y = draws x' y' := by
  have hequal : equal y = equal y' := funext fun v => hy.countP_eq _
  rw [draws_eq_sum, draws_eq_sum, hequal]
  exact (hx.map _).sum_eq

theorem points_le (hfin : AllFinite (x ++ y))
    (hN : (x ++ y).length * ((x ++ y).length + 1) ≤ 2 ^ 53) :
    points x y ≤ 2 ^ 53 ∧ points y x ≤ 2 ^ 53 := by
  have hpoints := points_add_points hfin.append.1 hfin.append.2
  have hsizes := (sizes_le hN).1
  omega

/-! ### The statistics -/

/-- **The statistics are the points, halved.** -/
theorem statistics_eq_halves (hx : x ≠ []) (hy : y ≠ []) (hfin : AllFinite (x ++ y))
    (hN : (x ++ y).length * ((x ++ y).length + 1) ≤ 2 ^ 53) :
    ∃ r, (PooledRanks.of x y).rankSum? x.length = some r ∧
      r - (x.length * (x.length + 1)).toFloat / 2 = halves (points x y) ∧
      x.length.toFloat * y.length.toFloat - halves (points x y) = halves (points y x) := by
  obtain ⟨hsizes, hx', hy'⟩ := sizes_le hN
  have hpoints := points_add_points hfin.append.1 hfin.append.2
  have hpos := List.length_pos_iff.2 hx
  have hcells := Nat.mul_pos hpos (List.length_pos_iff.2 hy)
  obtain ⟨r, hr, hvalue⟩ := hasValue_rankSum hfin hN
  have hleast := hasValue_toFloat_div_two (n := x.length * (x.length + 1)) (by omega)
  rw [← points] at hvalue
  refine ⟨r, hr, ?_, ?_⟩
  · rw [sub_halves_eq (by omega) (Nat.le_add_right _ _) (by positivity) hvalue hleast,
      Nat.add_sub_cancel_left]
  · have hproduct : HasValue (x.length.toFloat * y.length.toFloat)
        ((2 * (x.length * y.length) : ℕ) / 2) := by
      have := hasValue_natCast_mul (hasValue_natCast hx') (hasValue_natCast hy') (by omega)
      rw [show ((2 * (x.length * y.length) : ℕ) : ℝ) / 2 = (x.length * y.length : ℕ) by
        push_cast; ring]
      exact this
    rw [sub_halves_eq (by omega) (by omega) (by omega) hproduct (hasValue_halves (by omega))]
    congr 1
    omega

end

/-! ### The test -/

section

variable (tail : Float → Float) {x y : List Float} (c : Config)

theorem test_eq_of_comparable (h : Comparable x y)
    (hN : (x ++ y).length * ((x ++ y).length + 1) ≤ 2 ^ 53) :
    test tail x y c =
      (pValue tail (c.alternative.choose (halves (points x y)) (halves (points y x))) x.length
        y.length (PooledRanks.of x y) c).map (c.report (halves (points x y))) := by
  obtain ⟨r, hr, h₁, h₂⟩ := statistics_eq_halves h.left h.right h.finite hN
  have htied : (PooledRanks.of x y).allTied = false := by
    rw [← Bool.not_eq_true, PooledRanks.allTied_of_iff h.finite.numbers (two_le_length h.left h.right)]
    exact h.differ
  simp only [test, checkInput_eq_ok h.left h.right h.finite, htied, hr, h₁, h₂]
  generalize pValue tail _ _ _ _ _ = p
  cases p <;> rfl

theorem exists_choose_halves (a : Alternative) {m n b : ℕ} (hm : m ≤ b) (hn : n ≤ b)
    (hb : b ≤ 2 ^ 53) : ∃ k ≤ b, a.choose (halves m) (halves n) = halves k := by
  cases a with
  | less => exact ⟨n, hn, rfl⟩
  | greater => exact ⟨m, hm, rfl⟩
  | twoSided => exact ⟨max m n, max_le hm hn, max_halves (hm.trans hb) (hn.trans hb)⟩

/-- **The course of a test.** It is told the points of both samples, their sizes and the ties, and
finds a p-value. -/
theorem exists_test_eq_of_comparable (h : Comparable x y)
    (hN : (x ++ y).length * ((x ++ y).length + 1) ≤ 2 ^ 53) :
    ∃ p, pValue tail (c.alternative.choose (halves (points x y)) (halves (points y x))) x.length
        y.length (PooledRanks.of x y) c = .ok p ∧
      test tail x y c = .ok (c.report (halves (points x y)) p) := by
  have hpoints := points_add_points h.finite.append.1 h.finite.append.2
  have hsizes := (sizes_le hN).1
  obtain ⟨k, hk, hchoose⟩ := exists_choose_halves c.alternative (b := 2 * (x.length * y.length))
    (m := points x y) (n := points y x) (by omega) (by omega) (by omega)
  have hvalue : HasValue (halves k) ((k / 2 : ℚ) : ℝ) := by
    have := hasValue_halves (n := k) (by omega)
    rw [Rat.cast_div, Rat.cast_natCast, Rat.cast_ofNat]
    exact this
  have hmem : 0 ≤ (k / 2 : ℚ) ∧ (k / 2 : ℚ) ≤ (x.length * y.length : ℕ) := by
    refine ⟨by positivity, (div_le_iff₀' two_pos).2 ?_⟩
    exact_mod_cast hk
  obtain ⟨p, hp⟩ := exists_pValue_of_comparable tail c h hN hvalue hmem
  rw [← hchoose] at hp
  refine ⟨p, hp, ?_⟩
  rw [test_eq_of_comparable tail c h hN, hp]
  rfl

/-- The p-value knows the ranks by the tie groups only. -/
theorem pValue_congr {r r' : PooledRanks} (h : r.tieGroups = r'.tieGroups) (u : Float)
    (n₁ n₂ : ℕ) : pValue tail u n₁ n₂ r c = pValue tail u n₁ n₂ r' c := by
  have hties : r.hasTies = r'.hasTies := by rw [PooledRanks.hasTies, PooledRanks.hasTies, h]
  have hterm : r.tieTerm = r'.tieTerm := by rw [PooledRanks.tieTerm, PooledRanks.tieTerm, h]
  rw [pValue, pValue, hties, hterm]

/-- **Samples with the same points and places are tested alike.** -/
theorem test_congr {x' y' : List Float} (hx : x.length = x'.length) (hy : y.length = y'.length)
    (hfin : AllFinite (x ++ y)) (hfin' : AllFinite (x' ++ y'))
    (hN : (x ++ y).length * ((x ++ y).length + 1) ≤ 2 ^ 53) (hpoints : points x y = points x' y')
    (hplaces : places (x ++ y) = places (x' ++ y')) : test tail x y c = test tail x' y' c := by
  have hlength : (x ++ y).length = (x' ++ y').length := by simp only [List.length_append, hx, hy]
  by_cases hempty : x = [] ∨ y = []
  · have hempty' : x' = [] ∨ y' = [] := by
      simpa only [← List.length_eq_zero_iff, hx, hy] using hempty
    rw [test_of_empty tail c hempty, test_of_empty tail c hempty', hx, hy]
  rw [not_or] at hempty
  obtain ⟨hne, hne'⟩ := hempty
  have hneX : x' ≠ [] := by rwa [ne_eq, ← List.length_eq_zero_iff, ← hx, List.length_eq_zero_iff]
  have hneY : y' ≠ [] := by rwa [ne_eq, ← List.length_eq_zero_iff, ← hy, List.length_eq_zero_iff]
  by_cases hequal : AllEqual (x ++ y)
  · have hequal' : AllEqual (x' ++ y') := by
      rwa [allEqual_iff_places hfin', ← hplaces, ← allEqual_iff_places hfin]
    rw [test_of_allEqual tail c hne hne' hfin hequal,
      test_of_allEqual tail c hneX hneY hfin' hequal']
  · have hequal' : ¬ AllEqual (x' ++ y') := by
      rwa [allEqual_iff_places hfin', ← hplaces, ← allEqual_iff_places hfin]
    have hreverse : points y x = points y' x' := by
      have h := points_add_points hfin.append.1 hfin.append.2
      have h' := points_add_points hfin'.append.1 hfin'.append.2
      rw [hx, hy] at h
      omega
    rw [test_eq_of_comparable tail c ⟨hne, hne', hfin, hequal⟩ hN,
      test_eq_of_comparable tail c ⟨hneX, hneY, hfin', hequal'⟩ (hlength ▸ hN), hpoints, hreverse,
      hx, hy, pValue_congr tail c (PooledRanks.tieGroups_congr hfin hfin' hplaces)]

end

end Campaign.RankSum
