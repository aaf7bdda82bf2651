import Campaign.Proofs.Binary64.LastPlace

/-!
# Blends of two doubles

The blend `a · (1 - w) + b · w` of two numbers is rounded four times: the weight `1 - w`, both
products and their sum. The roundings do not cancel, so the blend of a number with itself may miss
the number, and a greater weight of the greater number may give a smaller blend. Both are bounded in
units in the last place.

Up to the last rounding a blend is off by less than 5/4 of a unit: each rounded product may be off
by half a unit, but that of the lesser weight is at most half as large, and the rounded weight
contributes less than another half. From there the bounds follow by counting, since the result is a
multiple of half a unit. Where the unit is the least one there is no half of it, but then sums are
exact.

* `blend`: the blend of two numbers as doubles compute it.

## Main statements

* `blend_le_add_lastPlace`, `sub_lastPlace_le_blend`: a blend is at most one unit outside.
* `blend_le_blend_add`: a greater weight lowers a blend by at most three units.
* `blend_of_signs`: a blend of numbers of both signs is between them.
* `abs_blend_le_greatest`: a blend of finite doubles is finite.
-/

namespace Campaign.Binary64

/-- The sum of the rounded products, before it is rounded itself. -/
noncomputable def weighted (a b w : ℝ) : ℝ := nearest (a * nearest (1 - w)) + nearest (b * w)

/-- The blend of two numbers, `w` being the weight of the second, as doubles compute it. -/
noncomputable def blend (a b w : ℝ) : ℝ := nearest (weighted a b w)

section

variable {a b a' b' w w' : ℝ}

theorem nearest_one_sub_nonneg (h1 : w ≤ 1) : 0 ≤ nearest (1 - w) :=
  nearest_nonneg (sub_nonneg.2 h1)

theorem nearest_one_sub_le_one (h0 : 0 ≤ w) : nearest (1 - w) ≤ 1 :=
  nearest_le onGrid_one (sub_le_self 1 h0)

/-- The weights add up to one almost exactly. -/
theorem abs_nearest_one_sub_le (h0 : 0 ≤ w) (h1 : w ≤ 1) :
    |nearest (1 - w) - (1 - w)| ≤ 1 / 2 ^ 54 := by
  have hbound := abs_nearest_sub_le_half (x := 1 - w) (k := -53) (by norm_num) (by
    rw [abs_of_nonneg (sub_nonneg.2 h1)]
    norm_num
    linarith)
  norm_num at hbound ⊢
  exact hbound

theorem onGrid_blend (a b w : ℝ) : OnGrid (blend a b w) := onGrid_nearest _

/-! ### Order and sign -/

theorem weighted_mono (h0 : 0 ≤ w) (h1 : w ≤ 1) (ha : a ≤ a') (hb : b ≤ b') :
    weighted a b w ≤ weighted a' b' w := by
  have hu := nearest_one_sub_nonneg h1
  exact add_le_add (nearest_mono (by gcongr)) (nearest_mono (by gcongr))

theorem blend_mono (h0 : 0 ≤ w) (h1 : w ≤ 1) (ha : a ≤ a') (hb : b ≤ b') :
    blend a b w ≤ blend a' b' w := nearest_mono (weighted_mono h0 h1 ha hb)

theorem weighted_neg (a b w : ℝ) : weighted (-a) (-b) w = -weighted a b w := by
  rw [weighted, weighted, neg_mul, neg_mul, nearest_neg, nearest_neg, neg_add]

theorem blend_neg (a b w : ℝ) : blend (-a) (-b) w = -blend a b w := by
  rw [blend, blend, weighted_neg, nearest_neg]

/-- Without a weight of the second number the blend is the first. -/
theorem blend_zero (ha : OnGrid a) (b : ℝ) : blend a b 0 = a := by
  rw [blend, weighted, sub_zero, nearest_of_onGrid onGrid_one, mul_one, mul_zero, nearest_zero,
    add_zero, nearest_of_onGrid (onGrid_nearest a), nearest_of_onGrid ha]

/-- **A blend of numbers of both signs** is between them. -/
theorem blend_of_signs (ha : OnGrid a) (hb : OnGrid b) (hneg : a ≤ 0) (hpos : 0 ≤ b) (h0 : 0 ≤ w)
    (h1 : w ≤ 1) : a ≤ blend a b w ∧ blend a b w ≤ b := by
  have hu := nearest_one_sub_nonneg h1
  have hu' := nearest_one_sub_le_one h0
  have hleft : nearest (a * nearest (1 - w)) ≤ 0 :=
    nearest_le onGrid_zero (mul_nonpos_of_nonpos_of_nonneg hneg hu)
  have hleft' : a ≤ nearest (a * nearest (1 - w)) :=
    le_nearest ha (by nlinarith)
  have hright : 0 ≤ nearest (b * w) := nearest_nonneg (mul_nonneg hpos h0)
  have hright' : nearest (b * w) ≤ b := nearest_le hb (mul_le_of_le_one_right hpos h1)
  constructor
  · exact le_nearest ha (by unfold weighted; linarith)
  · exact nearest_le hb (by unfold weighted; linarith)

/-! ### The error before the last rounding -/

/-- The exact blend. -/
theorem weighted_sub_eq (a b w : ℝ) : weighted a b w - (a * (1 - w) + b * w) =
    (nearest (a * nearest (1 - w)) - a * nearest (1 - w)) + (nearest (b * w) - b * w) +
      a * (nearest (1 - w) - (1 - w)) := by
  unfold weighted
  ring

variable {k : ℤ}

/-- What the rounded weight contributes. -/
theorem abs_mul_nearest_one_sub_lt (ha : |a| < 2 ^ (k + 53)) (h0 : 0 ≤ w) (h1 : w ≤ 1) :
    |a * (nearest (1 - w) - (1 - w))| < 2 ^ k / 2 := by
  have hweight := abs_nearest_one_sub_le h0 h1
  rw [abs_mul]
  calc |a| * |nearest (1 - w) - (1 - w)| ≤ |a| * (1 / 2 ^ 54) := by gcongr
    _ < 2 ^ (k + 53) * (1 / 2 ^ 54) := by gcongr
    _ = 2 ^ k / 2 := by
      rw [zpow_add₀ two_ne_zero]
      norm_num
      ring

/-- What a rounded product contributes. -/
theorem abs_nearest_mul_sub_le {u c : ℝ} (hk : -1074 ≤ k) (h0 : 0 ≤ u) (h1 : u ≤ c)
    (ha : |a| * c ≤ 2 ^ (k + 53)) : |nearest (a * u) - a * u| ≤ 2 ^ k / 2 := by
  refine abs_nearest_sub_le_half hk ?_
  have hpower : (0 : ℝ) < 2 ^ k := zpow_pos two_pos k
  rw [abs_mul, abs_of_nonneg h0]
  have hle : |a| * u ≤ |a| * c := by gcongr
  linarith

/-- **The error before the last rounding** is less than 3/2 of the unit. -/
theorem abs_weighted_sub_lt (hk : -1074 ≤ k) (ha : |a| < 2 ^ (k + 53)) (hb : |b| < 2 ^ (k + 53))
    (h0 : 0 ≤ w) (h1 : w ≤ 1) : |weighted a b w - (a * (1 - w) + b * w)| < 3 / 2 * 2 ^ k := by
  have hleft := abs_nearest_mul_sub_le (a := a) hk (nearest_one_sub_nonneg h1)
    (nearest_one_sub_le_one h0) (by linarith)
  have hright := abs_nearest_mul_sub_le (a := b) hk h0 h1 (by linarith)
  have hweight := abs_mul_nearest_one_sub_lt ha h0 h1
  rw [weighted_sub_eq]
  refine (abs_add_three _ _ _).trans_lt ?_
  linarith

/-- **The error before the last rounding** is less than 5/4 of a unit that is not the least one:
one of the weights is at most a half. -/
theorem abs_weighted_sub_lt_of_normal (hk : -1074 < k) (ha : |a| < 2 ^ (k + 53))
    (hb : |b| < 2 ^ (k + 53)) (h0 : 0 ≤ w) (h1 : w ≤ 1) :
    |weighted a b w - (a * (1 - w) + b * w)| < 5 / 4 * 2 ^ k := by
  have hhalf : (2 : ℝ) ^ (k - 1 + 53) = 2 ^ (k + 53) / 2 := by
    rw [sub_add_eq_add_sub, zpow_pred]
  have hunit := zpow_pred k
  have hweight := abs_mul_nearest_one_sub_lt ha h0 h1
  rw [weighted_sub_eq]
  refine (abs_add_three _ _ _).trans_lt ?_
  obtain hw | hw := le_total w (1 / 2)
  · have hleft := abs_nearest_mul_sub_le (a := a) hk.le (nearest_one_sub_nonneg h1)
      (nearest_one_sub_le_one h0) (by linarith)
    have hright := abs_nearest_mul_sub_le (a := b) (k := k - 1) (by omega) h0 hw (by linarith)
    linarith
  · have hu : nearest (1 - w) ≤ 1 / 2 := nearest_le hasValue_half.onGrid (by linarith)
    have hleft := abs_nearest_mul_sub_le (a := a) (k := k - 1) (by omega)
      (nearest_one_sub_nonneg h1) hu (by linarith)
    have hright := abs_nearest_mul_sub_le (a := b) hk.le h0 h1 (by linarith)
    linarith

/-! ### A blend of a number with itself -/

/-- Sums of doubles are multiples of the least unit. -/
theorem isMultiple_weighted (a b w : ℝ) : IsMultiple (-1074) (weighted a b w) :=
  ((onGrid_nearest _).isMultiple (.inl rfl)).add ((onGrid_nearest _).isMultiple (.inl rfl))

theorem blend_self_le {x : ℝ} (hx : OnGrid x) (h0 : 0 ≤ w) (h1 : w ≤ 1) :
    blend x x w ≤ x + lastPlace x := by
  have hpos := lastPlace_pos x
  have hnext := onGrid_add_lastPlace hx
  have hlt := abs_lt_lastPlaces x
  have hexact : x * (1 - w) + x * w = x := by ring
  obtain hk | hk := (le_lastExponent x).eq_or_lt
  · -- the sum is a multiple of the unit and thus at most the next point
    have herror := (abs_lt.1 (abs_weighted_sub_lt hk.le hlt hlt h0 h1)).2
    rw [hexact, ← lastPlace] at herror
    have hcount := (hk ▸ isMultiple_weighted x x w).sub_le hx.isMultiple_lastPlace 1 (by
      rw [← lastPlace]
      norm_num
      linarith)
    rw [← lastPlace, Int.cast_one, one_mul] at hcount
    exact nearest_le hnext (by linarith)
  · have herror := (abs_lt.1 (abs_weighted_sub_lt_of_normal hk hlt hlt h0 h1)).2
    rw [hexact, ← lastPlace] at herror
    obtain hle | hgt := le_or_gt (weighted x x w) (x + lastPlace x)
    · exact nearest_le hnext hle
    · -- the next point is nearer than a quarter of a unit, and the blend a multiple of half a unit
      have hnear := abs_le.1 ((abs_nearest_sub_le_abs_sub (x := weighted x x w) hnext).trans_eq
        (abs_of_neg (sub_neg.2 hgt)))
      rw [← blend] at hnear
      have hclose : |blend x x w - x| ≤ 4 * lastPlace x := by
        rw [abs_le]
        constructor <;> linarith
      have hself : |x - x| ≤ 4 * lastPlace x := by
        rw [sub_self, abs_zero]
        linarith
      have hcount := (onGrid_blend x x w).sub_le_halves hx (lastPlaces_le_abs hk) hclose hself 2 (by
        norm_num
        linarith)
      norm_num at hcount
      linarith

/-- **A blend is at most one unit above** what is above both numbers. -/
theorem blend_le_add_lastPlace {x : ℝ} (hx : OnGrid x) (ha : a ≤ x) (hb : b ≤ x) (h0 : 0 ≤ w)
    (h1 : w ≤ 1) : blend a b w ≤ x + lastPlace x :=
  (blend_mono h0 h1 ha hb).trans (blend_self_le hx h0 h1)

/-- **A blend is at most one unit below** what is below both numbers. -/
theorem sub_lastPlace_le_blend {x : ℝ} (hx : OnGrid x) (ha : x ≤ a) (hb : x ≤ b) (h0 : 0 ≤ w)
    (h1 : w ≤ 1) : x - lastPlace x ≤ blend a b w := by
  have hneg := blend_le_add_lastPlace hx.neg (neg_le_neg ha) (neg_le_neg hb) h0 h1
  rw [blend_neg, lastPlace_neg] at hneg
  linarith

/-! ### A greater weight -/

section

variable {M : ℝ}

theorem abs_exact_le (ha : |a| ≤ M) (hb : |b| ≤ M) (h0 : 0 ≤ w) (h1 : w ≤ 1) :
    |a * (1 - w) + b * w| ≤ M := by
  have hu : 0 ≤ 1 - w := sub_nonneg.2 h1
  calc |a * (1 - w) + b * w| ≤ |a| * (1 - w) + |b| * w := by
        refine (abs_add_le _ _).trans_eq ?_
        rw [abs_mul, abs_mul, abs_of_nonneg hu, abs_of_nonneg h0]
    _ ≤ M * (1 - w) + M * w := by gcongr
    _ = M := by ring

theorem abs_lt_of_le (ha : |a| ≤ M) : |a| < 2 ^ (lastExponent M + 53) :=
  ha.trans_lt ((le_abs_self M).trans_lt (abs_lt_lastPlaces M))

/-- **The error of the last rounding** is at most half a unit of the greater number. -/
theorem abs_blend_sub_weighted_le (hM : OnGrid M) (ha : |a| ≤ M) (hb : |b| ≤ M) (h0 : 0 ≤ w)
    (h1 : w ≤ 1) : |blend a b w - weighted a b w| ≤ lastPlace M / 2 := by
  refine abs_nearest_sub_le_half (le_lastExponent M) ?_
  have hroom := abs_add_lastPlace_le hM
  have hexact := abs_exact_le ha hb h0 h1
  have herror := abs_weighted_sub_lt (le_lastExponent M) (abs_lt_of_le ha) (abs_lt_of_le hb) h0 h1
  have htriangle := abs_sub_abs_le_abs_sub (weighted a b w) (a * (1 - w) + b * w)
  rw [← lastPlace] at *
  linarith [le_abs_self M]

theorem exact_mono (hab : a ≤ b) (hw : w ≤ w') : a * (1 - w) + b * w ≤ a * (1 - w') + b * w' := by
  nlinarith

/-- **A greater weight of the greater number** lowers a blend by at most three units. -/
theorem blend_le_blend_add (hM : OnGrid M) (ha : |a| ≤ M) (hb : |b| ≤ M) (hab : a ≤ b)
    (h0 : 0 ≤ w) (hw : w ≤ w') (h1 : w' ≤ 1) :
    blend a b w ≤ blend a b w' + 3 * lastPlace M := by
  have hpos := lastPlace_pos M
  have hexact := exact_mono hab hw
  have hle := hw.trans h1
  have hle' := h0.trans hw
  have hround := abs_le.1 (abs_blend_sub_weighted_le hM ha hb h0 hle)
  have hround' := abs_le.1 (abs_blend_sub_weighted_le hM ha hb hle' h1)
  suffices hcount : blend a b w - blend a b w' ≤ 3 * lastPlace M by linarith
  obtain hk | hk := (le_lastExponent M).eq_or_lt
  · -- all points of the grid are multiples of the unit
    have herror := abs_lt.1 (abs_weighted_sub_lt hk.le (abs_lt_of_le ha) (abs_lt_of_le hb) h0 hle)
    have herror' := abs_lt.1 (abs_weighted_sub_lt hk.le (abs_lt_of_le ha) (abs_lt_of_le hb) hle' h1)
    have hcount := ((onGrid_blend a b w).isMultiple (.inl hk.symm)).sub_le
      ((onGrid_blend a b w').isMultiple (.inl hk.symm)) 3 (by
        rw [← lastPlace] at *
        norm_num
        linarith)
    exact_mod_cast hcount
  · have herror := abs_lt.1 (abs_weighted_sub_lt_of_normal hk (abs_lt_of_le ha) (abs_lt_of_le hb)
      h0 hle)
    have herror' := abs_lt.1 (abs_weighted_sub_lt_of_normal hk (abs_lt_of_le ha) (abs_lt_of_le hb)
      hle' h1)
    rw [← lastPlace] at herror herror'
    by_contra! hgt
    -- near a number of at least `2^52` units both blends are counted in halves of the unit
    have hfar {x : ℝ} (hx : 2 ^ (lastExponent M + 52) ≤ |x|)
        (hr : |blend a b w - x| ≤ 4 * lastPlace M) (hr' : |blend a b w' - x| ≤ 4 * lastPlace M) :
        False := by
      have hcount := (onGrid_blend a b w).sub_le_halves (onGrid_blend a b w') hx hr hr' 6 (by
        norm_num
        linarith)
      norm_num at hcount
      linarith
    -- below them the last rounding is finer
    have hnear {u : ℝ} (hu : |weighted a b u| ≤ 2 ^ (lastExponent M + 52)) :
        |blend a b u - weighted a b u| ≤ lastPlace M / 4 := by
      have hpower : (0 : ℝ) < 2 ^ (lastExponent M - 1) := zpow_pos two_pos _
      refine (abs_nearest_sub_le_half (k := lastExponent M - 1) (by omega) ?_).trans_eq ?_
      · rw [show lastExponent M - 1 + 53 = lastExponent M + 52 by ring]
        linarith
      · rw [zpow_pred, ← lastPlace]
        ring
    obtain hlarge | hsmall := le_total (2 ^ (lastExponent M + 52)) |weighted a b w|
    · refine hfar hlarge (abs_le.2 ?_) (abs_le.2 ?_) <;> constructor <;> linarith
    obtain hlarge' | hsmall' := le_total (2 ^ (lastExponent M + 52)) |weighted a b w'|
    · refine hfar hlarge' (abs_le.2 ?_) (abs_le.2 ?_) <;> constructor <;> linarith
    have hfine := abs_le.1 (hnear hsmall)
    have hfine' := abs_le.1 (hnear hsmall')
    linarith

end

/-! ### No overflow -/

/-- **A blend of finite doubles** is finite. -/
theorem abs_blend_le_greatest (ha : |a| ≤ greatest) (hb : |b| ≤ greatest) (hw : OnGrid w)
    (h0 : 0 ≤ w) (h1 : w ≤ 1) : |blend a b w| ≤ greatest := by
  have hu := nearest_one_sub_nonneg h1
  have hsum := (abs_le.1 (abs_nearest_one_sub_le h0 h1)).2
  have hbound {x y : ℝ} (hx : x ≤ greatest) (hy : y ≤ greatest) : blend x y w ≤ greatest := by
    refine (blend_mono h0 h1 hx hy).trans ?_
    have hleft := nearest_greatest_mul_le (onGrid_nearest (1 - w)) hu
    have hright := nearest_greatest_mul_le hw h0
    have habove : weighted greatest greatest w ≤ greatest + greatest * (1 / 2 ^ 54) := by
      have hweights : greatest * (nearest (1 - w) + w) ≤ greatest * (1 + 1 / 2 ^ 54) :=
        mul_le_mul_of_nonneg_left (by linarith) greatest_nonneg
      unfold weighted
      linarith
    exact nearest_le_greatest (habove.trans_lt (by linarith [greatest_mul_lt]))
  rw [abs_le] at *
  constructor
  · have hneg := hbound (neg_le.1 ha.1) (neg_le.1 hb.1)
    rw [blend_neg] at hneg
    linarith
  · exact hbound ha.2 hb.2

/-- **Blending doubles** gives the blend of their numbers. -/
theorem HasValue.blend {x y z : Float} (hx : HasValue x a) (hy : HasValue y b) (hz : HasValue z w)
    (h0 : 0 ≤ w) (h1 : w ≤ 1) : HasValue (x * (1 - z) + y * z) (blend a b w) := by
  have hu := nearest_one_sub_nonneg h1
  have hu' := nearest_one_sub_le_one h0
  have hproduct {r u : ℝ} (hr : |r| ≤ greatest) (hu : 0 ≤ u) (hu' : u ≤ 1) :
      |nearest (r * u)| < 2 ^ 1024 := by
    refine (abs_nearest_le onGrid_greatest ?_).trans_lt greatest_lt
    rw [abs_mul, abs_of_nonneg hu]
    exact (mul_le_of_le_one_right (abs_nonneg r) hu').trans hr
  have hweight : HasValue (1 - z) (nearest (1 - w)) := hasValue_one.sub hz (by
    rw [abs_of_nonneg hu]
    exact hu'.trans_lt (one_lt_pow₀ one_lt_two (by norm_num)))
  refine (hx.mul hweight ?_).add (hy.mul hz ?_) ?_
  · exact hproduct hx.abs_le_greatest hu hu'
  · exact hproduct hy.abs_le_greatest h0 h1
  · exact (abs_blend_le_greatest hx.abs_le_greatest hy.abs_le_greatest hz.onGrid h0 h1).trans_lt
      greatest_lt

end

end Campaign.Binary64
