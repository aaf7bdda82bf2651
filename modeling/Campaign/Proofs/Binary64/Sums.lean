import Campaign.Proofs.Binary64.Whole

/-!
# Sums of doubles

Half-integers up to `2^52` are doubles, so adding, subtracting and summing them is exact. Where a
sum of positive numbers is rounded, each addition multiplies it by at most `1 + 2^-53`.

## Main statements

* `HasValue.add_halves`, `HasValue.sub_halves`, `hasValue_sum_halves`: sums of half-integers.
* `exists_hasValue_sum`: a bound for sums that are rounded.
* `growth_pow_le`: many roundings together.
-/

namespace Campaign.Binary64

/-! ### Half-integers -/

section

variable {x y : Float} {a b : ℤ}

theorem half_lt_overflow (h : IsSmall a) : |(a : ℝ) / 2| < 2 ^ 1024 := by
  rw [abs_div, abs_two]
  exact (half_le_self (abs_nonneg _)).trans_lt (intCast_lt_overflow h)

theorem HasValue.add_halves (hx : HasValue x (a / 2)) (hy : HasValue y (b / 2))
    (h : IsSmall (a + b)) : HasValue (x + y) ((a + b : ℤ) / 2) := by
  have hsum : (a : ℝ) / 2 + b / 2 = (a + b : ℤ) / 2 := by rw [Int.cast_add, add_div]
  have := hx.add_exact hy (hsum ▸ onGrid_half h) (hsum ▸ half_lt_overflow h)
  rwa [hsum] at this

theorem HasValue.sub_halves (hx : HasValue x (a / 2)) (hy : HasValue y (b / 2))
    (h : IsSmall (a - b)) : HasValue (x - y) ((a - b : ℤ) / 2) := by
  have hdiff : (a : ℝ) / 2 - b / 2 = (a - b : ℤ) / 2 := by rw [Int.cast_sub, sub_div]
  have := hx.sub_exact hy (hdiff ▸ onGrid_half h) (hdiff ▸ half_lt_overflow h)
  rwa [hdiff] at this

theorem hasValue_toFloat_div_two {n : ℕ} (h : n ≤ 2 ^ 53) : HasValue (n.toFloat / 2) (n / 2) := by
  have hsmall : IsSmall n := isSmall_natCast.2 h
  have hgrid := onGrid_half hsmall
  have hlt := half_lt_overflow hsmall
  rw [Int.cast_natCast] at hgrid hlt
  exact (hasValue_natCast h).div_exact hasValue_two two_ne_zero hgrid hlt

/-- **Sums of half-integers.** -/
theorem hasValue_sum_halves {β : Type} {f : β → Float} {h : β → ℕ} (l : List β)
    (hf : ∀ b ∈ l, HasValue (f b) (h b / 2)) (hsum : (l.map h).sum ≤ 2 ^ 53) :
    HasValue (sum (l.map f)) ((l.map h).sum / 2) := by
  induction l using List.reverseRecOn with
  | nil =>
    rw [List.map_nil, List.map_nil, List.sum_nil, Nat.cast_zero, zero_div, sum_nil]
    exact hasValue_negZero
  | append_singleton l b ih =>
    simp only [List.map_append, List.map_singleton, List.sum_append, List.sum_singleton,
      sum_append_singleton] at hsum ⊢
    have hl := ih (fun c hc => hf c (List.mem_append_left _ hc)) (by omega)
    have hb := hf b (List.mem_append_right l (List.mem_singleton_self b))
    generalize (l.map h).sum = n at *
    have hsmall : IsSmall ((n : ℤ) + h b) := by exact_mod_cast isSmall_natCast.2 hsum
    rw [← Int.cast_natCast] at hl hb
    have := hl.add_halves hb hsmall
    rwa [← Nat.cast_add, Int.cast_natCast] at this

end

/-! ### Sums that are rounded -/

theorem one_le_growth : 1 ≤ growth := by
  unfold growth
  norm_num

theorem nearest_le_mul_growth {x : ℝ} (h : 1 ≤ x) : nearest x ≤ x * growth := by
  have hx : |x| = x := abs_of_nonneg (zero_le_one.trans h)
  have := abs_nearest_sub_le_mul (x := x) (by rwa [hx])
  rw [hx, abs_le] at this
  calc nearest x ≤ x + x / 2 ^ 53 := by linarith
    _ = x * growth := by rw [growth]; ring

theorem growth_pow_le {k : ℕ} (h : k ≤ 2 ^ 52) : growth ^ k ≤ 1 + 2 * k / 2 ^ 53 := by
  induction k with
  | zero => simp
  | succ k ih =>
    have hk : (k : ℝ) ≤ 2 ^ 52 := by exact_mod_cast (Nat.le_succ k).trans h
    calc growth ^ (k + 1) = growth ^ k * growth := pow_succ _ _
      _ ≤ (1 + 2 * k / 2 ^ 53) * growth :=
          mul_le_mul_of_nonneg_right (ih (by omega)) (zero_le_one.trans one_le_growth)
      _ = 1 + 2 * k / 2 ^ 53 + (1 + 2 * k / 2 ^ 53) / 2 ^ 53 := by rw [growth]; ring
      _ ≤ 1 + 2 * k / 2 ^ 53 + 2 / 2 ^ 53 := by gcongr; linarith
      _ = 1 + 2 * ((k + 1 : ℕ) : ℝ) / 2 ^ 53 := by push_cast; ring

/-- **Sums with rounding.** If each number is at least one and at most its bound, the sum is at
most the sum of the bounds, with one growth for each addition. -/
theorem exists_hasValue_sum {β : Type} {f : β → Float} {bound : β → ℝ} (l : List β)
    (hf : ∀ b ∈ l, ∃ s, HasValue (f b) s ∧ 1 ≤ s ∧ s ≤ bound b)
    (hlt : (l.map bound).sum * growth ^ l.length < 2 ^ 1024) :
    ∃ s, HasValue (sum (l.map f)) s ∧ 0 ≤ s ∧ s ≤ (l.map bound).sum * growth ^ l.length := by
  induction l using List.reverseRecOn with
  | nil => exact ⟨0, hasValue_negZero, le_rfl, by simp⟩
  | append_singleton l b ih =>
    simp only [List.map_append, List.map_singleton, List.sum_append, List.sum_singleton,
      List.length_append, List.length_singleton, sum_append_singleton] at hlt ⊢
    obtain ⟨s, hs, hs1, hsb⟩ := hf b (List.mem_append_right l (List.mem_singleton_self b))
    have hl : ∀ c ∈ l, ∃ s, HasValue (f c) s ∧ 1 ≤ s ∧ s ≤ bound c :=
      fun c hc => hf c (List.mem_append_left _ hc)
    have hpos : 0 ≤ (l.map bound).sum := by
      refine List.sum_nonneg fun r hr => ?_
      obtain ⟨c, hc, rfl⟩ := List.mem_map.1 hr
      obtain ⟨t, -, ht1, htb⟩ := hl c hc
      linarith
    have hone := one_le_growth
    have hgrowth : 1 ≤ growth ^ l.length := one_le_pow₀ hone
    have hpart : (l.map bound).sum * growth ^ l.length ≤
        ((l.map bound).sum + bound b) * growth ^ (l.length + 1) := by
      have : growth ^ l.length ≤ growth ^ (l.length + 1) := pow_le_pow_right₀ hone (Nat.le_succ _)
      exact mul_le_mul (by linarith) this (zero_le_one.trans hgrowth) (by linarith)
    obtain ⟨r, hr, hr0, hrb⟩ := ih hl (hpart.trans_lt hlt)
    have hbound : nearest (r + s) ≤ ((l.map bound).sum + bound b) * growth ^ (l.length + 1) := by
      have hterm : bound b ≤ bound b * growth ^ l.length :=
        le_mul_of_one_le_right (by linarith) hgrowth
      calc nearest (r + s) ≤ (r + s) * growth := nearest_le_mul_growth (by linarith)
        _ ≤ ((l.map bound).sum * growth ^ l.length + bound b * growth ^ l.length) * growth := by
            gcongr
            linarith
        _ = ((l.map bound).sum + bound b) * growth ^ (l.length + 1) := by ring
    have hnonneg := nearest_nonneg (add_nonneg hr0 (zero_le_one.trans hs1))
    exact ⟨nearest (r + s), hr.add hs (by rw [abs_of_nonneg hnonneg]; exact hbound.trans_lt hlt),
      hnonneg, hbound⟩

end Campaign.Binary64
