import Campaign.Proofs.Binary64.Finite
import Campaign.Proofs.Decimal.Shortest
import Campaign.Proofs.Sample.Figures

/-!
# When the figures of a sample are finite

The order statistics of finite values are finite: the median is one of the values, or half of one
and half of another, and halves do not overflow when they are added. The mean and the standard
deviation are finite exactly if the sums behind them are, and rounding to decimal places keeps a
finite number finite.

* `squaredDeviations`: the sum behind the standard deviation;
* `Sample.SumsFinite`: the sums of a sample do not overflow.

## Main statements

* `isFinite_median`, `isFinite_mean_iff`, `isFinite_standardDeviation_iff`: the figures;
* `Decimal.isFinite_roundPlaces`: rounded figures;
* `isFinite_summary`: all figures of a sample.
-/

namespace Campaign

open Binary64

/-! ### The median -/

/-- Half of the greatest index is a whole number or lies between two whole numbers. -/
theorem exists_half_index {d : ℕ} (h : d < 2 ^ 64) :
    ∃ k : ℕ, k < 2 ^ 64 ∧ HasValue k.toFloat k ∧
      (HasValue (0.5 * d.toFloat) k ∨ HasValue (0.5 * d.toFloat) (k + 1 / 2)) := by
  obtain hsmall | hlarge := le_or_gt d (2 ^ 53)
  · have hgrid : OnGrid (1 / 2 * d) := by
      have := onGrid_half (n := d) (isSmall_natCast.2 hsmall)
      rwa [Int.cast_natCast, div_eq_inv_mul, ← one_div] at this
    have hvalue := hasValue_half.mul_exact (hasValue_natCast hsmall) hgrid (by
      rw [abs_of_nonneg (by positivity)]
      refine lt_of_le_of_lt ?_ ((le_abs_self _).trans_lt (natCast_lt_overflow hsmall))
      linarith [Nat.cast_nonneg (α := ℝ) d])
    refine ⟨d / 2, by omega, hasValue_natCast (by omega), ?_⟩
    obtain hd | hd : d = 2 * (d / 2) ∨ d = 2 * (d / 2) + 1 := by omega
    · left
      convert hvalue using 1
      conv_rhs => rw [hd]
      push_cast
      ring
    · right
      convert hvalue using 1
      conv_rhs => rw [hd]
      push_cast
      ring
  · have hge : (2 : ℝ) ^ 53 ≤ nearest d := le_nearest (onGrid_pow 53) (by exact_mod_cast hlarge.le)
    have hle : nearest (d : ℝ) ≤ 2 ^ 64 := nearest_le (onGrid_pow 64) (by exact_mod_cast h.le)
    have hpos : 0 ≤ nearest (d : ℝ) := nearest_nonneg (Nat.cast_nonneg d)
    have hlt {c : ℝ} (h0 : 0 ≤ c) (h1 : c ≤ 2 ^ 64) : |c| < 2 ^ 1024 := by
      rw [abs_of_nonneg h0]
      exact h1.trans_lt (pow_lt_pow_right₀ one_lt_two (by norm_num))
    obtain ⟨hgrid, k, hk⟩ := (onGrid_nearest (d : ℝ)).half_of_large hge
    have hmul : 1 / 2 * nearest (d : ℝ) = k := by rw [← hk]; ring
    rw [hk] at hgrid
    have hk64 : (k : ℝ) ≤ 2 ^ 63 := by linarith
    have hnear := nearest_of_onGrid hgrid
    have hvalue := hasValue_half.mul_exact (hasValue_natCast_nearest (hlt hpos hle))
      (hmul ▸ hgrid) (hmul ▸ hlt (Nat.cast_nonneg k) (by linarith))
    rw [hmul] at hvalue
    refine ⟨k, ?_, ?_, .inl hvalue⟩
    · exact_mod_cast hk64.trans_lt (show (2 : ℝ) ^ 63 < 2 ^ 64 by norm_num)
    · have := hasValue_natCast_nearest (n := k)
        (by rw [hnear]; exact hlt (Nat.cast_nonneg k) (by linarith))
      rwa [hnear] at this

/-- **The median of finite data** is finite. -/
theorem isFinite_median {data : List Float} (hfin : ∀ v ∈ data, v.isFinite = true)
    (hlength : data.length < 2 ^ 64) {m : Float} (h : percentile? data 50 = some m) :
    m.isFinite = true := by
  rcases data with _ | ⟨v, _ | ⟨w, rest⟩⟩
  · obtain rfl : 0 = m := Option.some.inj h
    exact hasValue_zero.isFinite
  · obtain rfl : v = m := Option.some.inj h
    exact hfin v List.mem_cons_self
  · set data := v :: w :: rest with hdata
    rw [median_eq (by simp [hdata])] at h
    obtain ⟨k, hk64, hk, hindex⟩ := exists_half_index (d := data.length - 1) (by omega)
    simp only at h
    split_ifs at h with hwhole
    · exact hfin m (List.mem_of_getElem? h)
    · simp only [Option.bind_eq_bind, Option.bind_eq_some_iff] at h
      obtain ⟨a, ha, b, hb, h⟩ := h
      obtain rfl := Option.some.inj h
      have hk0 : (0 : ℝ) ≤ k := Nat.cast_nonneg k
      have hk' : (k : ℝ) + 1 ≤ 2 ^ 64 := by exact_mod_cast hk64
      rcases hindex with hindex | hindex
      · -- a whole index is its own neighbour
        have htruncate : truncate (0.5 * (data.length - 1).toFloat) = k := by
          rw [truncate_eq hindex hk0 (by linarith), Nat.floor_natCast]
        refine absurd ?_ hwhole
        rw [ceilNat, htruncate, if_neg (by rw [hk.lt_iff hindex]; exact lt_irrefl _)]
      · have htruncate : truncate (0.5 * (data.length - 1).toFloat) = k := by
          rw [truncate_eq hindex (by linarith) (by linarith)]
          exact (Nat.floor_eq_iff (by linarith)).2 ⟨by linarith, by linarith⟩
        have hweight : HasValue (0.5 * (data.length - 1).toFloat - k.toFloat) (1 / 2) := by
          have hsub : (k : ℝ) + 1 / 2 - k = 1 / 2 := by ring
          have := hindex.sub_exact hk (by rw [hsub]; exact hasValue_half.onGrid)
            (by rw [hsub]; exact hasValue_half.abs_lt)
          rwa [hsub] at this
        have hrest : HasValue (1 - (0.5 * (data.length - 1).toFloat - k.toFloat)) (1 / 2) := by
          have hsub : (1 : ℝ) - 1 / 2 = 1 / 2 := by norm_num
          have := hasValue_one.sub_exact hweight (by rw [hsub]; exact hasValue_half.onGrid)
            (by rw [hsub]; exact hasValue_half.abs_lt)
          rwa [hsub] at this
        rw [htruncate]
        exact (hasValue_toReal (hfin a (List.mem_of_getElem? ha))).isFinite_halves
          (hasValue_toReal (hfin b (List.mem_of_getElem? hb))) hrest hweight

/-! ### The mean and the standard deviation -/

/-- The sum of the squares of the distances from the mean. -/
def squaredDeviations (values : List Float) (mean : Float) : Float :=
  sum (values.map fun v => (v - mean) * (v - mean))

theorem exists_hasValue_length {n : ℕ} (h1 : 1 ≤ n) (h : n < 2 ^ 64) :
    ∃ b, HasValue n.toFloat b ∧ 1 ≤ b := by
  have hle : |(n : ℝ)| ≤ 2 ^ 64 := by
    rw [Nat.abs_cast]
    exact_mod_cast h.le
  exact ⟨_, hasValue_natCast_nearest (abs_nearest_lt (by norm_num) hle),
    le_nearest onGrid_one (by exact_mod_cast h1)⟩

theorem isFinite_mean_iff {total : Float} {n : ℕ} (h1 : 1 ≤ n) (h : n < 2 ^ 64) :
    (total / n.toFloat).isFinite = true ↔ total.isFinite = true := by
  obtain ⟨b, hb, hb1⟩ := exists_hasValue_length h1 h
  exact ⟨isFinite_of_div, fun hfin => ((hasValue_toReal hfin).div_of_one_le hb hb1).isFinite⟩

theorem squaredDeviations_nonneg {values : List Float} {mean : Float}
    (h : (squaredDeviations values mean).isFinite = true) :
    0 ≤ toReal (squaredDeviations values mean) := by
  refine sum_nonneg (fun x hx hfin => ?_) h
  obtain ⟨v, -, rfl⟩ := List.mem_map.1 hx
  have hdistance := hasValue_toReal (isFinite_of_mul hfin).1
  rw [(hdistance.mul_of_isFinite hdistance hfin).toReal_eq]
  exact nearest_nonneg (mul_self_nonneg _)

/-- A single value has the standard deviation zero, whatever its mean is. -/
theorem isFinite_standardDeviation_iff {values : List Float} (h : values.length < 2 ^ 64)
    (mean : Float) : (standardDeviation values mean).isFinite = true ↔
      (1 < values.length → (squaredDeviations values mean).isFinite = true) := by
  have hopen : standardDeviation values mean = if 1 < values.length then
    (squaredDeviations values mean / (values.length - 1).toFloat).sqrt else 0 := rfl
  rw [hopen]
  split_ifs with hmany
  · simp only [hmany, forall_true_left]
    obtain ⟨b, hb, hb1⟩ := exists_hasValue_length (n := values.length - 1) (by omega) (by omega)
    refine ⟨fun hfin => isFinite_of_div (isFinite_of_sqrt hfin), fun hfin => ?_⟩
    have hquotient := (hasValue_toReal hfin).div_of_one_le hb hb1
    refine (hquotient.sqrt (nearest_nonneg (div_nonneg ?_ (zero_le_one.trans hb1)))).isFinite
    exact squaredDeviations_nonneg hfin
  · simp [hmany, hasValue_zero.isFinite]

/-! ### Rounded figures -/

namespace Decimal

theorem roundPlaces_eq {x : Float} {negative : Bool} {m : ℕ} {q : ℤ}
    (hx : value x = .finite negative m q) (places : ℕ) :
    roundPlaces places x = toFloat negative
      ⟨roundDiv (scaled m q places).1 (scaled m q places).2 .toEven, -(places : ℤ)⟩ := by
  rw [roundPlaces, hx]

/-- A double that is rounded to decimal places stays below the overflow bound: a number with a
fraction is far below the greatest one. -/
theorem abs_nearest_roundDiv_lt {x : Float} {negative : Bool} {m : ℕ} {q : ℤ}
    (hx : value x = .finite negative m q) (places : ℕ) :
    |nearest (toReal ⟨roundDiv (scaled m q places).1 (scaled m q places).2 .toEven,
      -(places : ℤ)⟩)| < 2 ^ 1024 := by
  have hvalue : HasValue x (if negative then -(m * 2 ^ q) else m * 2 ^ q) :=
    ⟨isFinite_of_value hx, toReal_of_value hx⟩
  have hmagnitude : OnGrid (m * 2 ^ q) ∧ |(m : ℝ) * 2 ^ q| < 2 ^ 1024 := by
    have hgrid := hvalue.onGrid
    have hlt := hvalue.abs_lt
    split_ifs at hgrid hlt
    · exact ⟨by simpa using hgrid.neg, by simpa using hlt⟩
    · exact ⟨hgrid, hlt⟩
  rw [toReal]
  have hpower : (0 : ℝ) < 10 ^ places := by positivity
  have hneg : (-(places : ℤ)).toNat = 0 := by omega
  simp only [scaled, Int.toNat_natCast, hneg, Nat.pow_eq, pow_zero, mul_one]
  rw [zpow_neg, zpow_natCast, ← div_eq_mul_inv]
  obtain hq | hq := le_or_gt 0 q
  · -- a whole number is not changed
    have hone : 2 ^ (-q).toNat = 1 := by rw [show (-q).toNat = 0 by omega, pow_zero]
    have hwhole := roundDiv_mul (m * 2 ^ q.toNat * 10 ^ places) 1 .toEven one_pos
    rw [mul_one] at hwhole
    have hsame : ((m * 2 ^ q.toNat * 10 ^ places : ℕ) : ℝ) / 10 ^ places = m * 2 ^ q := by
      conv_rhs => rw [← Int.toNat_of_nonneg hq, zpow_natCast]
      push_cast
      exact mul_div_cancel_right₀ _ hpower.ne'
    rw [hone, hwhole, hsame, nearest_of_onGrid hmagnitude.1]
    exact hmagnitude.2
  · have hm : m < 2 ^ 53 := by
      rcases Nat.eq_zero_or_pos m with rfl | hm
      · norm_num
      · exact (canonical_of_value hx hm).1
    rw [show q.toNat = 0 by omega, pow_zero, mul_one]
    set den := 2 ^ (-q).toNat
    have hden : 0 < den := by positivity
    set c := roundDiv (m * 10 ^ places) den .toEven
    have hc : c ≤ m * 10 ^ places + 1 := by
      have hnear : 2 * (den * c) ≤ 2 * (m * 10 ^ places) + den := (roundDiv_near _ _ _ hden).1
      by_contra hlt
      have hle : den * (m * 10 ^ places + 2) ≤ den * c := Nat.mul_le_mul_left den (by omega)
      have hnum : m * 10 ^ places ≤ den * (m * 10 ^ places) := Nat.le_mul_of_pos_left _ hden
      rw [Nat.mul_add] at hle
      omega
    have hone : (1 : ℝ) ≤ 10 ^ places := one_le_pow₀ (by norm_num)
    have hle : (c : ℝ) / 10 ^ places ≤ 2 ^ 54 := by
      rw [div_le_iff₀ hpower]
      have hc' : (c : ℝ) ≤ m * 10 ^ places + 1 := by exact_mod_cast hc
      have hm' : (m : ℝ) ≤ 2 ^ 53 := by exact_mod_cast hm.le
      calc (c : ℝ) ≤ m * 10 ^ places + 1 := hc'
        _ ≤ 2 ^ 53 * 10 ^ places + 10 ^ places := by gcongr
        _ ≤ 2 ^ 54 * 10 ^ places := by linarith
    refine abs_nearest_lt (k := 54) (by norm_num) ?_
    rwa [abs_of_nonneg (by positivity)]

/-- **Rounding to decimal places** does not lead out of the doubles. -/
theorem isFinite_roundPlaces {x : Float} (h : x.isFinite = true) (places : ℕ) :
    (roundPlaces places x).isFinite = true := by
  obtain ⟨negative, m, q, hx⟩ := exists_value_of_isFinite h
  rw [roundPlaces_eq hx]
  exact (hasValue_toFloat negative (abs_nearest_roundDiv_lt hx places)).isFinite

end Decimal

/-! ### All figures -/

/-- The sums behind the mean and the standard deviation of a sample do not overflow. -/
structure Sample.SumsFinite (s : Sample) : Prop where
  total : (sum s.values).isFinite = true
  squares : 1 < s.values.length →
    (squaredDeviations s.values (sum s.values / s.values.length.toFloat)).isFinite = true

/-- What the figures of a sample are. -/
structure Sample.IsSummary (s : Sample) (m : Summary) : Prop where
  count : m.count = s.values.length
  mean : m.mean = sum s.values / s.values.length.toFloat
  stddev : m.stddev = standardDeviation s.values m.mean
  min : m.min ∈ s.values
  max : m.max ∈ s.values
  median : percentile? s.sorted 50 = some m.median

theorem isSummary_of {s : Sample} {m : Summary} (h : Summary.of s = .ok m) : s.IsSummary m := by
  cases hvalid : s.validate with
  | error e =>
    rw [Summary.of, Sample.mean, hvalid] at h
    cases h
  | ok _ =>
    have hmem : ∀ v ∈ s.sorted, v ∈ s.values := fun v hv => List.mem_mergeSort.1 hv
    simp only [Summary.of, mean_of_valid hvalid] at h
    cases hhead : s.sorted.head? with
    | none => rw [hhead] at h; cases h
    | some low =>
      cases hlast : s.sorted.getLast? with
      | none => rw [hhead, hlast] at h; cases h
      | some high =>
        cases hmedian : percentile? s.sorted 50 with
        | none => rw [hhead, hlast, hmedian] at h; cases h
        | some median =>
          rw [hhead, hlast, hmedian] at h
          obtain rfl := Except.ok.inj h
          have hlow := hmem _ (List.mem_of_head? hhead)
          have hhigh := hmem _ (List.mem_of_getLast? hlast)
          exact ⟨rfl, rfl, rfl, hlow, hhigh, hmedian⟩

/-- **The figures of a usable sample.** Those that are values or lie between two of them are finite;
the others are finite exactly if the sums behind them are. -/
theorem isFinite_summary {s : Sample} {m : Summary} (hvalid : s.validate = .ok ())
    (hlength : s.values.length < 2 ^ 64) (h : s.IsSummary m) :
    m.min.isFinite = true ∧ m.max.isFinite = true ∧ m.median.isFinite = true ∧
      (m.mean.isFinite = true ∧ m.stddev.isFinite = true ↔ s.SumsFinite) := by
  obtain ⟨hne, hfin⟩ := (Sample.validate_eq_ok_iff s).1 hvalid
  have hsorted : ∀ v ∈ s.sorted, v.isFinite = true := fun v hv => hfin v (List.mem_mergeSort.1 hv)
  refine ⟨hfin _ h.min, hfin _ h.max,
    isFinite_median hsorted (by rwa [length_sorted]) h.median, ?_⟩
  rw [h.stddev, h.mean, isFinite_mean_iff (List.length_pos_iff.2 hne) hlength,
    isFinite_standardDeviation_iff hlength]
  exact ⟨fun hsums => ⟨hsums.1, hsums.2⟩, fun hsums => ⟨hsums.total, hsums.squares⟩⟩

end Campaign
