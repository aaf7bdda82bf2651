import Campaign.Proofs.Binary64.Special

/-!
# Doubles as extended real numbers

Every double but not-a-number stands for a real number or for one of the two infinities. Comparing
such doubles is comparing what they stand for, and the total order refines that order: the bits of
an infinity are above those of every finite magnitude.

* `toEReal`: the extended real number that a double stands for;
* `wholePart`: the greatest integer that is not above a number, if it is finite.

## Main statements

* `lt_iff_toEReal`, `le_iff_toEReal`, `beq_iff_toEReal`: comparisons;
* `le_truncate_iff`: a double used as an index is rounded down;
* `toEReal_le_of_totalLE`: the total order respects the order of the numbers.
-/

namespace Campaign.Binary64

open Float.Model (Format UnpackedFloat)
open Float.Model.UnpackedFloat

/-- The infinity with a sign. -/
noncomputable def infinityOf : Sign → EReal
  | .negative => ⊥
  | .positive => ⊤

/-- The extended real number that a double stands for, and zero for not-a-number. -/
noncomputable def toEReal (x : Float) : EReal :=
  match x.toModel.unpack with
  | .infinity s => infinityOf s
  | _ => toReal x

/-! ### Finite or infinite -/

section

variable {x y : Float} {r : ℝ}

theorem HasValue.toEReal_eq (hx : HasValue x r) : toEReal x = r := by
  obtain ⟨hc, -⟩ := hx.canonical
  unfold toEReal
  rw [hx.toReal_eq]
  cases hu : x.toModel.unpack with
  | infinity s =>
    rw [hu] at hc
    exact hc.elim
  | notANumber => rfl
  | zero s => rfl
  | finite s m e hm => rfl

theorem toEReal_of_unpack {s : Sign} (h : x.toModel.unpack = .infinity s) :
    toEReal x = infinityOf s := by
  rw [toEReal, h]

theorem toEReal_cases (h : x.isNaN = false) :
    (∃ r : ℝ, HasValue x r ∧ toEReal x = r) ∨
      ∃ s, x.toModel.unpack = .infinity s ∧ toEReal x = infinityOf s := by
  by_cases hfin : x.isFinite = true
  · exact .inl ⟨_, hasValue_toReal hfin, (hasValue_toReal hfin).toEReal_eq⟩
  · obtain ⟨s, hs⟩ := unpack_of_not_isFinite h hfin
    exact .inr ⟨s, hs, toEReal_of_unpack hs⟩

/-! ### Comparisons -/

theorem compare_coe (a b : ℝ) : compare (a : EReal) b = compare a b := by
  rcases lt_trichotomy a b with h | rfl | h
  · rw [compare_lt_iff_lt.2 h, compare_lt_iff_lt.2 (EReal.coe_lt_coe_iff.2 h)]
  · rw [compare_eq_iff_eq.2 rfl, compare_eq_iff_eq.2 rfl]
  · rw [compare_gt_iff_gt.2 h, compare_gt_iff_gt.2 (EReal.coe_lt_coe_iff.2 h)]

/-- What is finite lies between the infinities. -/
theorem compare_infinity_left {u : UnpackedFloat} (hu : Canonical u) (s : Sign) (b : ℝ) :
    (UnpackedFloat.infinity s).compare u = some (compare (infinityOf s) b) := by
  have hcompare : compare (infinityOf s) b =
      match s with | .negative => .lt | .positive => .gt := by
    cases s
    · exact compare_lt_iff_lt.2 (EReal.bot_lt_coe b)
    · exact compare_gt_iff_gt.2 (EReal.coe_lt_top b)
  rw [hcompare]
  cases u with
  | infinity t => exact hu.elim
  | notANumber => exact hu.elim
  | zero t => cases s <;> rfl
  | finite t n f hn => cases s <;> rfl

theorem compare_infinity_right {u : UnpackedFloat} (hu : Canonical u) (s : Sign) (b : ℝ) :
    u.compare (.infinity s) = some (compare (b : EReal) (infinityOf s)) := by
  have hcompare : compare (b : EReal) (infinityOf s) =
      match s with | .negative => .gt | .positive => .lt := by
    cases s
    · exact compare_gt_iff_gt.2 (EReal.bot_lt_coe b)
    · exact compare_lt_iff_lt.2 (EReal.coe_lt_top b)
  rw [hcompare]
  cases u with
  | infinity t => exact hu.elim
  | notANumber => exact hu.elim
  | zero t => cases s <;> rfl
  | finite t n f hn => cases s <;> rfl

theorem compare_infinity (s t : Sign) :
    (UnpackedFloat.infinity s).compare (.infinity t) =
      some (compare (infinityOf s) (infinityOf t)) := by
  have hlt : infinityOf .negative < infinityOf .positive := bot_lt_top
  cases s <;> cases t
  · rw [compare_eq_iff_eq.2 rfl]
    rfl
  · rw [compare_lt_iff_lt.2 hlt]
    rfl
  · rw [compare_gt_iff_gt.2 hlt]
    rfl
  · rw [compare_eq_iff_eq.2 rfl]
    rfl

/-- **Comparing doubles is comparing their numbers**, finite or not. -/
theorem compare_toEReal (hx : x.isNaN = false) (hy : y.isNaN = false) :
    x.toModel.unpack.compare y.toModel.unpack = some (compare (toEReal x) (toEReal y)) := by
  rcases toEReal_cases hx with ⟨a, ha, hxa⟩ | ⟨s, hs, hxs⟩ <;>
    rcases toEReal_cases hy with ⟨b, hb, hyb⟩ | ⟨t, ht, hyt⟩
  · rw [hxa, hyb, compare_coe, ha.compare hb]
  · rw [ht, hxa, hyt, compare_infinity_right ha.canonical.1]
  · rw [hs, hxs, hyb, compare_infinity_left hb.canonical.1]
  · rw [hs, ht, hxs, hyt, compare_infinity]

theorem lt_iff_toEReal (hx : x.isNaN = false) (hy : y.isNaN = false) :
    x < y ↔ toEReal x < toEReal y := by
  rw [lt_eq_compare, compare_toEReal hx hy, Option.some_inj, compare_lt_iff_lt]

theorem le_iff_toEReal (hx : x.isNaN = false) (hy : y.isNaN = false) :
    x ≤ y ↔ toEReal x ≤ toEReal y := by
  rw [le_eq_compare, compare_toEReal hx hy, Option.any_some, ← compare_le_iff_le,
    Ordering.isLE_iff_ne_gt]

theorem beq_iff_toEReal (hx : x.isNaN = false) (hy : y.isNaN = false) :
    (x == y) = true ↔ toEReal x = toEReal y := by
  have h : (x == y) = (x.toModel.unpack.compare y.toModel.unpack == some .eq) := rfl
  rw [h, compare_toEReal hx hy, beq_iff_eq, Option.some_inj, compare_eq_iff_eq]

/-! ### Whole parts -/

/-- The whole part of an extended real number. -/
noncomputable def wholePart : EReal → EReal
  | ⊥ => ⊥
  | ⊤ => ⊤
  | (r : ℝ) => (⌊r⌋ : ℝ)

theorem natCast_le_wholePart {e : EReal} {n : ℕ} : (n : EReal) ≤ wholePart e ↔ (n : EReal) ≤ e := by
  induction e with
  | bot => rfl
  | top => rfl
  | coe r =>
    change (n : EReal) ≤ ((⌊r⌋ : ℝ) : EReal) ↔ _
    rw [← EReal.coe_natCast, EReal.coe_le_coe_iff, EReal.coe_le_coe_iff, ← Int.cast_natCast,
      Int.cast_le, Int.le_floor]

theorem wholePart_le_natCast {e : EReal} {n : ℕ} :
    wholePart e ≤ n ↔ e < ((n + 1 : ℕ) : EReal) := by
  induction e with
  | bot => exact iff_of_true bot_le (EReal.bot_lt_coe _)
  | top => exact iff_of_false (not_le.2 (EReal.coe_lt_top _)) (not_lt.2 le_top)
  | coe r =>
    change ((⌊r⌋ : ℝ) : EReal) ≤ _ ↔ _
    rw [← EReal.coe_natCast, ← EReal.coe_natCast, EReal.coe_le_coe_iff, EReal.coe_lt_coe_iff,
      ← Int.cast_natCast, Int.cast_le, ← Int.lt_add_one_iff, Int.floor_lt]
    push_cast
    rfl

theorem truncate_of_unpack (h : x.toModel.unpack = .infinity .positive) :
    truncate x = 2 ^ 64 - 1 := by
  change (UInt64.ofNatClamp (x.toModel.unpack.toInt 0 (UInt64.size - 1)).toNat).toNat = _
  rw [h]
  rfl

/-- **A double that is used as an index is rounded down**, finite or not, up to the greatest
index. -/
theorem le_truncate_iff (hx : x.isNaN = false) (h0 : 0 ≤ toEReal x) {n : ℕ} (hn : n < 2 ^ 64) :
    n ≤ truncate x ↔ (n : EReal) ≤ toEReal x := by
  rcases toEReal_cases hx with ⟨r, hr, hxr⟩ | ⟨s, hs, hxs⟩
  · rw [hxr] at h0 ⊢
    have h0 : 0 ≤ r := EReal.coe_nonneg.1 h0
    rw [truncate_eq_min hr h0, ← EReal.coe_natCast, EReal.coe_le_coe_iff, ← Nat.le_floor_iff h0]
    omega
  · rw [hxs] at h0 ⊢
    cases s with
    | negative => exact absurd h0 (not_le.2 EReal.bot_lt_zero)
    | positive => exact iff_of_true (by rw [truncate_of_unpack hs]; omega) le_top

/-! ### The total order -/

/-- The key of the infinity with a sign. -/
def infinityKey : Sign → ℤ
  | .negative => -1 - 2 ^ 52 * 2047
  | .positive => 2 ^ 52 * 2047

theorem totalKey_of_unpack {s : Sign} (h : x.toModel.unpack = .infinity s) :
    totalKey x = infinityKey s := by
  have hbits : x.toBits.toNat = 2 ^ 63 * s.toBitVec.toNat + 2 ^ 52 * 2047 := unpack_infinity h
  simp only [totalKey, hbits]
  cases s <;> simp [Sign.toBitVec, infinityKey]

/-- The keys of finite doubles are between those of the infinities. -/
theorem HasValue.totalKey_mem (hx : HasValue x r) :
    infinityKey .negative < totalKey x ∧ totalKey x < infinityKey .positive := by
  have hindex : index x.toModel.unpack < 2 ^ 52 * 2047 := by
    cases hu : x.toModel.unpack with
    | infinity s => exact Nat.zero_lt_succ _
    | notANumber => exact Nat.zero_lt_succ _
    | zero s => exact Nat.zero_lt_succ _
    | finite s m e hm =>
      obtain ⟨⟨h1, -, -⟩, h2, -⟩ := unpack_finite hu
      simp only [index]
      omega
  rw [totalKey_eq hx.isFinite]
  cases signOf x.toModel.unpack <;> constructor <;> simp only [infinityKey] <;> omega

theorem totalKey_lt_of_toEReal (hx : x.isNaN = false) (hy : y.isNaN = false)
    (h : toEReal x < toEReal y) : totalKey x < totalKey y := by
  rcases toEReal_cases hx with ⟨a, ha, hxa⟩ | ⟨s, hs, hxs⟩ <;>
    rcases toEReal_cases hy with ⟨b, hb, hyb⟩ | ⟨t, ht, hyt⟩
  · rw [hxa, hyb, EReal.coe_lt_coe_iff] at h
    exact totalKey_lt ha hb h
  · have hkey := ha.totalKey_mem
    rw [totalKey_of_unpack ht]
    cases t
    · rw [hyt] at h
      exact absurd h not_lt_bot
    · exact hkey.2
  · have hkey := hb.totalKey_mem
    rw [totalKey_of_unpack hs]
    cases s
    · exact hkey.1
    · rw [hxs] at h
      exact absurd h not_top_lt
  · rw [totalKey_of_unpack hs, totalKey_of_unpack ht]
    rw [hxs, hyt] at h
    cases s <;> cases t
    · exact absurd h (lt_irrefl _)
    · decide
    · exact absurd h not_top_lt
    · exact absurd h (lt_irrefl _)

/-- **The total order respects the order of the numbers**, finite or not. -/
theorem toEReal_le_of_totalLE (hx : x.isNaN = false) (hy : y.isNaN = false)
    (h : totalLE x y = true) : toEReal x ≤ toEReal y := by
  by_contra hlt
  have := totalKey_lt_of_toEReal hy hx (not_le.1 hlt)
  simp only [totalLE, decide_eq_true_eq] at h
  omega

end

end Campaign.Binary64
