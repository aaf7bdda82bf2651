import Campaign.Proofs.Binary64.Extended
import Campaign.Proofs.RankSum.Table

/-!
# Both tails of the permutation distribution

A tail may be asked for at any number: a negative one, one with a fraction, one beyond the greatest
statistic, an infinity. In each case it is the share of the arrangements on that side of the whole
part of the number, and the order and the symmetry of the tails are those of the counts.

## Main statements

* `upperTail_eq`, `lowerTail_eq`: the tails as shares of the arrangements.
* `tails_tabulate`: with their order, their symmetry and the choice of the shorter end.
-/

namespace Campaign.RankSum

open Binary64 Finset NullDistribution

/-- There are more arrangements than pairs. -/
theorem mul_lt_choose (m n : ℕ) : m * n < (m + n).choose m := by
  induction m generalizing n with
  | zero => simp
  | succ m ihm =>
    induction n with
    | zero => simp
    | succ n ihn =>
      have hm := ihm (n + 1)
      have hpascal : (m + 1 + (n + 1)).choose (m + 1) =
          (m + (n + 1)).choose m + (m + 1 + n).choose (m + 1) := by
        rw [← Nat.add_assoc (m + 1) n 1, Nat.choose_succ_succ, Nat.add_right_comm m 1 n,
          Nat.add_assoc m n 1]
      calc (m + 1) * (n + 1) ≤ m * (n + 1) + 1 + (m + 1) * n := by nlinarith
        _ < (m + 1 + (n + 1)).choose (m + 1) := by omega

/-! ### Arrangements on one side of a number -/

section

variable {n₁ n₂ : ℕ} {u v : Float}

theorem le_zero_iff (hu : u.isNaN = false) : u ≤ 0 ↔ toEReal u ≤ 0 := by
  rw [le_iff_toEReal hu (by decide), hasValue_zero.toEReal_eq, EReal.coe_zero]

theorem lt_zero_iff (hu : u.isNaN = false) : u < 0 ↔ toEReal u < 0 := by
  rw [lt_iff_toEReal hu (by decide), hasValue_zero.toEReal_eq, EReal.coe_zero]

theorem card_atLeast_of_nonpos (h0 : toEReal u ≤ 0) :
    #{S ∈ arrangements n₁ n₂ | wholePart (toEReal u) ≤ rankStatistic S} =
      (n₁ + n₂).choose n₁ := by
  rw [← card_arrangements, filter_true_of_mem]
  intro S _
  refine wholePart_le_natCast.2 (h0.trans_lt ?_)
  exact_mod_cast Nat.succ_pos (rankStatistic S)

theorem card_atLeast (hcells : n₁ * n₂ < 2 ^ 53) (hu : u.isNaN = false) (h0 : 0 ≤ toEReal u) :
    #{S ∈ arrangements n₁ n₂ | wholePart (toEReal u) ≤ rankStatistic S} =
      countAtLeast n₁ n₂ (truncate u) := by
  refine congrArg card (filter_congr fun S hS => ?_)
  have := rankStatistic_le hS
  rw [wholePart_le_natCast, ← not_le, ← le_truncate_iff hu h0 (by omega)]
  omega

theorem card_atMost_of_neg (h0 : toEReal u < 0) :
    #{S ∈ arrangements n₁ n₂ | (rankStatistic S : EReal) ≤ wholePart (toEReal u)} = 0 := by
  refine card_eq_zero.2 (filter_eq_empty_iff.2 fun S _ hle => ?_)
  refine absurd (natCast_le_wholePart.1 hle) (not_le.2 (h0.trans_le ?_))
  exact_mod_cast Nat.zero_le (rankStatistic S)

theorem card_atMost (hcells : n₁ * n₂ < 2 ^ 53) (hu : u.isNaN = false) (h0 : 0 ≤ toEReal u) :
    #{S ∈ arrangements n₁ n₂ | (rankStatistic S : EReal) ≤ wholePart (toEReal u)} =
      #{S ∈ arrangements n₁ n₂ | rankStatistic S ≤ min (truncate u) (n₁ * n₂)} := by
  refine congrArg card (filter_congr fun S hS => ?_)
  have := rankStatistic_le hS
  rw [natCast_le_wholePart, ← le_truncate_iff hu h0 (by omega)]
  omega

/-! ### The tails as shares -/

/-- **The upper tail at any number.** -/
theorem upperTail_eq (h : (n₁ + n₂).choose n₁ ≤ 2 ^ 53) (hu : u.isNaN = false) :
    (tabulate n₁ n₂).upperTail u =
      (#{S ∈ arrangements n₁ n₂ | wholePart (toEReal u) ≤ rankStatistic S}).toFloat /
        ((n₁ + n₂).choose n₁).toFloat := by
  by_cases hle : u ≤ 0
  · rw [upperTail, if_pos hle, card_atLeast_of_nonpos ((le_zero_iff hu).1 hle),
      toFloat_div_self (choose_pos n₁ n₂) h]
  · have h0 : 0 ≤ toEReal u := le_of_not_ge fun hge => hle ((le_zero_iff hu).2 hge)
    rw [upperTail_of_pos h hle, card_atLeast ((mul_lt_choose n₁ n₂).trans_le h) hu h0]

/-- **The lower tail at any number.** -/
theorem lowerTail_eq (h : (n₁ + n₂).choose n₁ ≤ 2 ^ 53) (hu : u.isNaN = false) :
    (tabulate n₁ n₂).lowerTail u =
      (#{S ∈ arrangements n₁ n₂ | (rankStatistic S : EReal) ≤ wholePart (toEReal u)}).toFloat /
        ((n₁ + n₂).choose n₁).toFloat := by
  by_cases hlt : u < 0
  · rw [lowerTail, if_pos hlt, card_atMost_of_neg ((lt_zero_iff hu).1 hlt),
      toFloat_zero_div (choose_pos n₁ n₂) h]
  · have h0 : 0 ≤ toEReal u := le_of_not_gt fun hgt => hlt ((lt_zero_iff hu).2 hgt)
    rw [card_atMost ((mul_lt_choose n₁ n₂).trans_le h) hu h0]
    have hle := card_filter_le (arrangements n₁ n₂)
      (rankStatistic · ≤ min (truncate u) (n₁ * n₂))
    rw [card_arrangements] at hle
    obtain ⟨p, hp, hp0, hp1⟩ := exists_hasValue_share hle (choose_pos n₁ n₂) h
    rw [lowerTail, if_neg hlt]
    simp only [maxU_tabulate, arrangements_tabulate h]
    rw [countSum_tabulate h (Nat.succ_pos _) (by omega), sum_count_lower, clamp_eq hp hp0 hp1]

/-! ### Order and symmetry -/

theorem toFloat_div_mono {a a' b : ℕ} (haa : a ≤ a') (hab : a' ≤ b) (hb : 0 < b)
    (h : b ≤ 2 ^ 53) : a.toFloat / b.toFloat ≤ a'.toFloat / b.toFloat := by
  obtain ⟨p, hp, -⟩ := exists_hasValue_share (haa.trans hab) hb h
  obtain ⟨q, hq, -⟩ := exists_hasValue_share hab hb h
  rw [hp.le_iff hq, ← hp.toReal_eq, ← hq.toReal_eq]
  exact toReal_div_mono haa hab hb h

theorem wholePart_mono {a b : EReal} (hab : a ≤ b) {k : ℕ} (h : wholePart b ≤ k) :
    wholePart a ≤ k :=
  wholePart_le_natCast.2 (hab.trans_lt (wholePart_le_natCast.1 h))

theorem upperTail_anti (h : (n₁ + n₂).choose n₁ ≤ 2 ^ 53) (hu : u.isNaN = false)
    (hv : v.isNaN = false) (huv : u ≤ v) :
    (tabulate n₁ n₂).upperTail v ≤ (tabulate n₁ n₂).upperTail u := by
  have hle := (le_iff_toEReal hu hv).1 huv
  rw [upperTail_eq h hu, upperTail_eq h hv]
  refine toFloat_div_mono (card_le_card ?_) ?_ (choose_pos n₁ n₂) h
  · exact monotone_filter_right _ fun S _ hS => wholePart_mono hle hS
  · rw [← card_arrangements]
    exact card_filter_le _ _

theorem lowerTail_mono (h : (n₁ + n₂).choose n₁ ≤ 2 ^ 53) (hu : u.isNaN = false)
    (hv : v.isNaN = false) (huv : u ≤ v) :
    (tabulate n₁ n₂).lowerTail u ≤ (tabulate n₁ n₂).lowerTail v := by
  have hle := (le_iff_toEReal hu hv).1 huv
  rw [lowerTail_eq h hu, lowerTail_eq h hv]
  refine toFloat_div_mono (card_le_card ?_) ?_ (choose_pos n₁ n₂) h
  · exact monotone_filter_right _ fun S _ hS =>
      natCast_le_wholePart.2 ((natCast_le_wholePart.1 hS).trans hle)
  · rw [← card_arrangements]
    exact card_filter_le _ _

theorem lowerTail_natCast (h : (n₁ + n₂).choose n₁ ≤ 2 ^ 53) {k : ℕ} (hk : k ≤ n₁ * n₂) :
    (tabulate n₁ n₂).lowerTail k.toFloat =
      (#{S ∈ arrangements n₁ n₂ | rankStatistic S ≤ k}).toFloat /
        ((n₁ + n₂).choose n₁).toFloat := by
  have hvalue := hasValue_natCast (n := k) (hk.trans ((mul_lt_choose n₁ n₂).le.trans h))
  rw [lowerTail_eq h hvalue.isNaN, hvalue.toEReal_eq]
  simp only [natCast_le_wholePart, EReal.coe_natCast, Nat.cast_le]

theorem upperTail_natCast (h : (n₁ + n₂).choose n₁ ≤ 2 ^ 53) {k : ℕ} (hk : k ≤ n₁ * n₂) :
    (tabulate n₁ n₂).upperTail k.toFloat =
      (countAtLeast n₁ n₂ k).toFloat / ((n₁ + n₂).choose n₁).toFloat := by
  have hcells := (mul_lt_choose n₁ n₂).trans_le h
  have hvalue := hasValue_natCast (n := k) (hk.trans hcells.le)
  rw [upperTail_tabulate h (by omega) hvalue (Nat.cast_nonneg k) (by exact_mod_cast hk),
    Nat.floor_natCast]

end

/-- **Both tails.** At every number, finite or not, the upper tail is the share of the arrangements
whose statistic is at least the whole part of it, and the lower tail the share of those whose
statistic is at most that. So the upper tail never grows and the lower one never falls, each is the
other one counted from the other end, and it makes no difference which end of the table is
summed. -/
theorem tails_tabulate (n₁ n₂ : ℕ) (h : (n₁ + n₂).choose n₁ ≤ 2 ^ 53) :
    (∀ u : Float, u.isNaN = false →
      (tabulate n₁ n₂).upperTail u =
          (#{S ∈ arrangements n₁ n₂ | wholePart (toEReal u) ≤ rankStatistic S}).toFloat /
            ((n₁ + n₂).choose n₁).toFloat ∧
        (tabulate n₁ n₂).lowerTail u =
          (#{S ∈ arrangements n₁ n₂ | (rankStatistic S : EReal) ≤ wholePart (toEReal u)}).toFloat /
            ((n₁ + n₂).choose n₁).toFloat ∧
        (u < 0 → (tabulate n₁ n₂).lowerTail u = 0)) ∧
    (∀ u v : Float, u.isNaN = false → v.isNaN = false → u ≤ v →
      (tabulate n₁ n₂).upperTail v ≤ (tabulate n₁ n₂).upperTail u ∧
        (tabulate n₁ n₂).lowerTail u ≤ (tabulate n₁ n₂).lowerTail v) ∧
    (∀ k ≤ n₁ * n₂, (tabulate n₁ n₂).lowerTail k.toFloat =
      (tabulate n₁ n₂).upperTail (n₁ * n₂ - k).toFloat) ∧
    ∀ start ≤ (tabulate n₁ n₂).maxU,
      (tabulate n₁ n₂).countSum 0 ((tabulate n₁ n₂).maxU - start + 1) =
        (tabulate n₁ n₂).countSum start ((tabulate n₁ n₂).maxU + 1) := by
  refine ⟨fun u hu => ⟨upperTail_eq h hu, lowerTail_eq h hu, fun hlt => if_pos hlt⟩,
    fun u v hu hv huv => ⟨upperTail_anti h hu hv huv, lowerTail_mono h hu hv huv⟩,
    fun k hk => ?_, fun start hstart => ?_⟩
  · rw [lowerTail_natCast h hk, upperTail_natCast h (Nat.sub_le _ _), countAtLeast_sub hk]
  · rw [maxU_tabulate] at hstart ⊢
    obtain ⟨hhead, htail⟩ := countSum_mirrored h hstart
    rw [hhead, htail]

/-- Three values against three: the tails below, inside and beyond the range. -/
theorem tails_tabulate_three_three :
    (3 + 3).choose 3 ≤ 2 ^ 53 ∧ (tabulate 3 3).lowerTail (-1 / 0) = 0 ∧
      (tabulate 3 3).upperTail (1 / 0) ≤ (tabulate 3 3).upperTail 4.5 ∧
      (tabulate 3 3).lowerTail (4 : ℕ).toFloat = (tabulate 3 3).upperTail (5 : ℕ).toFloat ∧
      (tabulate 3 3).countSum 0 5 = (tabulate 3 3).countSum 5 10 := by
  obtain ⟨hshare, horder, hsymmetry, hends⟩ := tails_tabulate 3 3 (by decide)
  refine ⟨by decide, (hshare (-1 / 0) (by decide +kernel)).2.2 (by decide +kernel), ?_, ?_, ?_⟩
  · exact (horder 4.5 (1 / 0) (by decide +kernel) (by decide +kernel) (by decide +kernel)).1
  · exact hsymmetry 4 (by decide)
  · exact hends 5 (by decide)

end Campaign.RankSum
