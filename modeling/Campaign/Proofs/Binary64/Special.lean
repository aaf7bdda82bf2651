import Campaign.Proofs.Binary64.Finite

/-!
# Doubles that are not finite

There is one double for each form that bits unpack to: the infinities and not-a-number have no
payload that could tell two of them apart. So a difference is the sum with the negated number, also
where it is not finite. A sum that overflows is the infinity on the side of what was added.

## Main statements

* `unpack_injective`: a double is determined by its form;
* `eq_of_value_nan`, `eq_of_value_infinite`: the doubles that stand for no number;
* `isFinite_of_sub`, `HasValue.sub_of_isFinite`: finite differences;
* `HasValue.finiteOr_add`, `HasValue.finiteOr_sub`: sums and differences that may overflow;
* `hasValue_div_infinite`: quotients by what is not finite.
-/

namespace Campaign.Binary64

open Float.Model (Format UnpackedFloat)
open Float.Model.UnpackedFloat

/-! ### One double for each form -/

/-- The bits that unpack to not-a-number are one pattern, if they are valid. -/
theorem unpack_notANumber {b : BitVec 64} (hvalid : Format.binary64.Valid b)
    (h : UnpackedFloat.unpack .binary64 b = .notANumber) : b = packedNaN .binary64 := by
  unfold UnpackedFloat.unpack at h
  simp only at h
  split_ifs at h with h1 h2
  exact hvalid.eq_packedNaN h1 h2

theorem unpack_injective {x y : Float} (h : x.toModel.unpack = y.toModel.unpack) : x = y := by
  refine Float.toBits_inj.1 (UInt64.toNat.inj ?_)
  change x.toModel.toBits.toBitVec.toNat = y.toModel.toBits.toBitVec.toNat
  cases hu : y.toModel.unpack with
  | zero s => rw [unpack_zero (h.trans hu), unpack_zero hu]
  | infinity s => rw [unpack_infinity (h.trans hu), unpack_infinity hu]
  | finite s m e hm => rw [(unpack_finite (h.trans hu)).2.2, (unpack_finite hu).2.2]
  | notANumber =>
    rw [unpack_notANumber x.toModel.valid (h.trans hu), unpack_notANumber y.toModel.valid hu]

/-! ### The doubles that stand for no number -/

theorem unpack_of_value_nan {x : Float} (h : value x = .nan) : x.toModel.unpack = .notANumber := by
  unfold value at h
  cases hu : x.toModel.unpack <;> simp_all

theorem eq_of_value_nan {x : Float} (h : value x = .nan) : x = 0 / 0 :=
  unpack_injective ((unpack_of_value_nan h).trans (unpack_of_value_nan (by decide)).symm)

theorem unpack_of_value_infinite {x : Float} {negative : Bool} (h : value x = .infinite negative) :
    x.toModel.unpack = .infinity (if negative then .negative else .positive) := by
  unfold value at h
  cases hu : x.toModel.unpack with
  | infinity s =>
    rw [hu] at h
    cases s <;> cases h <;> rfl
  | notANumber => simp [hu] at h
  | zero s => simp [hu] at h
  | finite s m e hm => simp [hu] at h

theorem eq_of_value_infinite {x : Float} {negative : Bool} (h : value x = .infinite negative) :
    x = if negative then -(1 / 0) else 1 / 0 := by
  have hvalue : value (if negative then -(1 / 0) else 1 / 0) = .infinite negative := by
    cases negative <;> decide
  exact unpack_injective
    ((unpack_of_value_infinite h).trans (unpack_of_value_infinite hvalue).symm)

/-! ### Negated doubles -/

theorem unpack_neg (x : Float) : (-x).toModel.unpack = x.toModel.unpack.neg := by
  change UnpackedFloat.unpack .binary64 (UnpackedFloat.pack .binary64 x.toModel.unpack.neg) = _
  by_cases hfin : x.isFinite = true
  · obtain ⟨hc, -⟩ := (hasValue_toReal hfin).canonical
    have hlt := (hasValue_toReal hfin).abs_lt
    rw [toReal_eq_real] at hlt
    exact unpack_pack (canonical_neg hc) (by rwa [real_neg, abs_neg])
  · change ¬ x.toModel.unpack.isFinite = true at hfin
    cases hu : x.toModel.unpack with
    | infinity s => cases s <;> rfl
    | notANumber => rfl
    | zero s => exact absurd (by rw [hu]; rfl) hfin
    | finite s m e hm => exact absurd (by rw [hu]; rfl) hfin

protected theorem neg_neg (x : Float) : - -x = x := by
  apply unpack_injective
  rw [unpack_neg, unpack_neg]
  rcases x.toModel.unpack with s | _ | s | ⟨s, m, e, hm⟩
  · cases s <;> rfl
  · rfl
  · cases s <;> rfl
  · cases s <;> rfl

theorem value_neg {x : Float} {negative : Bool} {m : ℕ} {q : ℤ}
    (hx : value x = .finite negative m q) : value (-x) = .finite (!negative) m q := by
  unfold value at hx ⊢
  rw [unpack_neg]
  rcases hu : x.toModel.unpack with s | _ | s | ⟨s, n, e, hn⟩
  · simp [hu] at hx
  · simp [hu] at hx
  · simp only [hu, Value.finite.injEq] at hx
    obtain ⟨rfl, rfl, rfl⟩ := hx
    cases s <;> rfl
  · simp only [hu, Value.finite.injEq] at hx
    obtain ⟨rfl, rfl, rfl⟩ := hx
    cases s <;> rfl

/-! ### Differences -/

protected theorem sub_eq_add_neg (x y : Float) : x - y = x + -y := by
  change Float.ofModel (.pack (sub .binary64 x.toModel.unpack y.toModel.unpack)) =
    Float.ofModel (.pack (add .binary64 x.toModel.unpack (-y).toModel.unpack))
  rw [unpack_neg, sub_eq_add]

theorem isFinite_neg {x : Float} : (-x).isFinite = x.isFinite := by
  change (-x).toModel.unpack.isFinite = x.toModel.unpack.isFinite
  rw [unpack_neg]
  cases x.toModel.unpack <;> rfl

section

variable {x y : Float} {a b : ℝ}

theorem isFinite_of_sub (h : (x - y).isFinite = true) :
    x.isFinite = true ∧ y.isFinite = true := by
  rw [Binary64.sub_eq_add_neg] at h
  simpa only [isFinite_neg] using isFinite_of_add h

theorem HasValue.sub_of_isFinite (hx : HasValue x a) (hy : HasValue y b)
    (h : (x - y).isFinite = true) : HasValue (x - y) (nearest (a - b)) := by
  rw [Binary64.sub_eq_add_neg] at h ⊢
  exact hx.add_of_isFinite hy.neg h

/-! ### Overflow -/

/-- A number, or the infinity of a sign. -/
def FiniteOr (s : Sign) (x : Float) : Prop := x.isFinite = true ∨ x.toModel.unpack = .infinity s

theorem HasValue.finiteOr {s : Sign} (hx : HasValue x a) : FiniteOr s x := .inl hx.isFinite

/-- A number that is not too large on one side is packed as itself or as the infinity of the other
side. -/
theorem finiteOr_ofModel {s : Sign} {u : UnpackedFloat} (hc : Canonical u)
    (h : -greatest ≤ signed s (real u)) : FiniteOr s (.ofModel (.pack u)) := by
  rcases lt_or_ge |real u| (2 ^ 1024) with hlt | hge
  · exact .inl (hasValue_ofModel ⟨hc, rfl⟩ hlt).isFinite
  · obtain ⟨t, hpos, hinfinity⟩ := unpack_pack_overflow hc hge
    have hbeyond : greatest < signed t (real u) := by
      rw [← abs_of_pos hpos, abs_signed]
      exact greatest_lt.trans_le hge
    clear hge
    refine .inr (hinfinity.trans (congrArg _ ?_))
    cases s <;> cases t <;> simp only [signed] at * <;> first | rfl | linarith

/-- **A sum that overflows** is the infinity on the side of what was added. -/
theorem HasValue.finiteOr_add {s : Sign} (hx : HasValue x a) (hy : HasValue y b)
    (hs : 0 ≤ signed s b) : FiniteOr s (x + y) := by
  have hbound : -greatest ≤ signed s (nearest (a + b)) := by
    have ha := abs_le.1 hx.abs_le_greatest
    rw [← nearest_signed]
    refine le_nearest onGrid_greatest.neg ?_
    cases s <;> simp only [signed] at * <;> linarith
  obtain ⟨hcx, rfl⟩ := hx.canonical
  obtain ⟨hcy, rfl⟩ := hy.canonical
  obtain ⟨hc, hr⟩ := add_spec hcx hcy
  exact finiteOr_ofModel hc (by rwa [hr])

theorem HasValue.finiteOr_sub {s : Sign} (hx : HasValue x a) (hy : HasValue y b)
    (hs : signed s b ≤ 0) : FiniteOr s (x - y) := by
  rw [Binary64.sub_eq_add_neg]
  refine hx.finiteOr_add hy.neg ?_
  cases s <;> simp only [signed] at * <;> linarith

/-- A finite quotient by what is not finite is zero. -/
theorem hasValue_div_infinite (hy : ¬ y.isFinite = true) (h : (x / y).isFinite = true) :
    HasValue (x / y) 0 := by
  have hx := isFinite_of_div h
  have hu := isFinite_of_pack (u := div .binary64 x.toModel.unpack y.toModel.unpack) h
  change x.toModel.unpack.isFinite = true at hx
  change ¬ y.toModel.unpack.isFinite = true at hy
  have hzero : ∃ s, div .binary64 x.toModel.unpack y.toModel.unpack = .zero s := by
    generalize x.toModel.unpack = u at *
    generalize y.toModel.unpack = v at *
    cases u <;> cases v <;> first
      | exact absurd rfl hy
      | exact absurd hx Bool.false_ne_true
      | exact absurd hu Bool.false_ne_true
      | exact ⟨_, rfl⟩
  obtain ⟨s, hs⟩ := hzero
  change HasValue (.ofModel (.pack (div .binary64 x.toModel.unpack y.toModel.unpack))) 0
  rw [hs]
  exact hasValue_ofModel ⟨trivial, rfl⟩ (by rw [abs_zero]; positivity)

end

end Campaign.Binary64
