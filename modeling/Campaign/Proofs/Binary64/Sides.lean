import Campaign.Proofs.Binary64.Overflow

/-!
# Doubles on one side of others

A sign names a side: what is not below a double is on its plus side, and what is not above it on its
minus side. The infinity with a sign is on that side of everything but not-a-number, which is on no
side of anything. So results that may overflow are placed by cases: a number is where its exact
value is, and an infinity is beyond all others.

* `Toward s x y`: the double `y` is on the side `s` of `x`.

## Main statements

* `Toward.add`: a sum of two doubles on one side of zero is on that side of both;
* `toward_foldl_extreme`: the extreme of many doubles is on the side of all of them;
* `zero_le_sum`: a sum of doubles that are not negative, finite or not.
-/

namespace Campaign.Binary64

open Float.Model (UnpackedFloat)
open Float.Model.UnpackedFloat

/-! ### The order of doubles -/

section

variable {x y z : Float} {a b : ℝ} {s : Sign}

theorem le_self (hx : x.isNaN = false) : x ≤ x := (le_iff_toEReal hx hx).2 le_rfl

protected theorem le_trans (hxy : x ≤ y) (hyz : y ≤ z) : x ≤ z := by
  have hx := isNaN_of_le hxy
  have hy := isNaN_of_le hyz
  have hz := isNaN_right_of_le hyz
  rw [le_iff_toEReal hx hy] at hxy
  rw [le_iff_toEReal hy hz] at hyz
  exact (le_iff_toEReal hx hz).2 (hxy.trans hyz)

theorem le_or_le (hx : x.isNaN = false) (hy : y.isNaN = false) : x ≤ y ∨ y ≤ x := by
  rw [le_iff_toEReal hx hy, le_iff_toEReal hy hx]
  exact le_total _ _

theorem lt_iff_not_le (hx : x.isNaN = false) (hy : y.isNaN = false) : x < y ↔ ¬y ≤ x := by
  rw [lt_iff_toEReal hx hy, le_iff_toEReal hy hx, not_le]

protected theorem lt_of_lt_of_le (hxy : x < y) (hyz : y ≤ z) : x < z := by
  have hx := isNaN_of_le (isLE_of_lt hxy)
  rw [lt_iff_not_le hx (isNaN_of_le hyz)] at hxy
  rw [lt_iff_not_le hx (isNaN_right_of_le hyz)]
  intro hzx
  exact hxy (Binary64.le_trans hyz hzx)

protected theorem lt_of_le_of_lt (hxy : x ≤ y) (hyz : y < z) : x < z := by
  have hz := isNaN_right_of_le (isLE_of_lt hyz)
  rw [lt_iff_not_le (isNaN_right_of_le hxy) hz] at hyz
  rw [lt_iff_not_le (isNaN_of_le hxy) hz]
  intro hzx
  exact hyz (Binary64.le_trans hzx hxy)

/-- What lies in a range is the nearest point of the range to itself. -/
theorem clamp_of_between (hlow : x ≤ y) (hhigh : y ≤ z) : clamp x z y = y := by
  have hy := isNaN_of_le hhigh
  unfold clamp
  rw [if_neg, if_neg]
  · rw [lt_iff_not_le (isNaN_right_of_le hhigh) hy]
    exact not_not_intro hhigh
  · rw [lt_iff_not_le hy (isNaN_of_le hlow)]
    exact not_not_intro hlow

/-! ### Sides -/

/-- The second double is on a side of the first: not below it for the plus sign, not above it for
the minus sign. -/
def Toward : Sign → Float → Float → Prop
  | .positive, x, y => x ≤ y
  | .negative, x, y => y ≤ x

theorem toward_self (s : Sign) (hx : x.isNaN = false) : Toward s x x := by
  cases s
  · exact le_self hx
  · exact le_self hx

theorem Toward.trans (hxy : Toward s x y) (hyz : Toward s y z) : Toward s x z := by
  cases s
  · exact Binary64.le_trans hyz hxy
  · exact Binary64.le_trans hxy hyz

theorem Toward.isNaN (h : Toward s x y) : x.isNaN = false ∧ y.isNaN = false := by
  cases s
  · exact ⟨isNaN_right_of_le h, isNaN_of_le h⟩
  · exact ⟨isNaN_of_le h, isNaN_right_of_le h⟩

theorem RoundsTo.toward (hx : RoundsTo x a) (hy : RoundsTo y b) (h : signed s a ≤ signed s b) :
    Toward s x y := by
  cases s
  · exact hy.le hx (neg_le_neg_iff.1 h)
  · exact hx.le hy h

/-- The infinity with a sign is on that side of whatever is a number. -/
theorem toward_infinity (hx : x.isNaN = false) (hy : y.toModel.unpack = .infinity s) :
    Toward s x y := by
  have hny := isNaN_of_unpack hy
  have hinfinity := toEReal_of_unpack hy
  cases s
  · exact (le_iff_toEReal hny hx).2 (hinfinity ▸ bot_le)
  · exact (le_iff_toEReal hx hny).2 (hinfinity ▸ le_top)

/-- What is on a side of zero is a number on that side, or the infinity there. -/
theorem Toward.cases (h : Toward s 0 x) :
    (∃ a, HasValue x a ∧ 0 ≤ signed s a) ∨ x.toModel.unpack = .infinity s := by
  rcases toEReal_cases h.isNaN.2 with ⟨a, ha, -⟩ | ⟨t, ht, hxt⟩
  · left
    refine ⟨a, ha, ?_⟩
    cases s
    · exact neg_nonneg.2 ((ha.le_iff hasValue_zero).1 h)
    · exact (hasValue_zero.le_iff ha).1 h
  · right
    have hzero := hasValue_zero.toEReal_eq
    cases s
    · have hle := (le_iff_toEReal h.isNaN.2 h.isNaN.1).1 h
      cases t
      · exact ht
      · rw [hxt, hzero] at hle
        exact absurd hle (not_le.2 (EReal.coe_lt_top 0))
    · have hle := (le_iff_toEReal h.isNaN.1 h.isNaN.2).1 h
      cases t
      · rw [hxt, hzero] at hle
        exact absurd hle (not_le.2 (EReal.bot_lt_coe 0))
      · exact ht

/-! ### Sums on a side of zero -/

theorem infinity_add {u : UnpackedFloat} (hu : Canonical u) (s : Sign) :
    UnpackedFloat.add .binary64 (.infinity s) u = .infinity s := by
  cases u with
  | infinity t => exact hu.elim
  | notANumber => exact hu.elim
  | zero t => rfl
  | finite t m e hm => rfl

theorem infinity_add_self (s : Sign) :
    UnpackedFloat.add .binary64 (.infinity s) (.infinity s) = .infinity s := by
  cases s <;> rfl

/-- The sum of a number or an infinity and an infinity of the same side. -/
theorem unpack_add_infinity (hx : Toward s 0 x) (hy : y.toModel.unpack = .infinity s) :
    (x + y).toModel.unpack = .infinity s := by
  change UnpackedFloat.unpack .binary64 (UnpackedFloat.pack .binary64
    (UnpackedFloat.add .binary64 x.toModel.unpack y.toModel.unpack)) = _
  rcases hx.cases with ⟨a, ha, -⟩ | hx
  · rw [hy, add_infinity ha.canonical.1, unpack_pack_infinity]
  · rw [hx, hy, infinity_add_self, unpack_pack_infinity]

theorem unpack_infinity_add (hx : x.toModel.unpack = .infinity s) (hy : Toward s 0 y) :
    (x + y).toModel.unpack = .infinity s := by
  change UnpackedFloat.unpack .binary64 (UnpackedFloat.pack .binary64
    (UnpackedFloat.add .binary64 x.toModel.unpack y.toModel.unpack)) = _
  rcases hy.cases with ⟨b, hb, -⟩ | hy
  · rw [hx, infinity_add hb.canonical.1, unpack_pack_infinity]
  · rw [hx, hy, infinity_add_self, unpack_pack_infinity]

/-- **A sum of two doubles on one side of zero** is on that side of both. -/
theorem Toward.add (hx : Toward s 0 x) (hy : Toward s 0 y) :
    Toward s x (x + y) ∧ Toward s y (x + y) := by
  rcases hx.cases with ⟨a, ha, ha0⟩ | hxs
  · rcases hy.cases with ⟨b, hb, hb0⟩ | hys
    · have hsum : signed s (a + b) = signed s a + signed s b := by
        cases s
        · exact neg_add a b
        · rfl
      exact ⟨ha.roundsTo.toward (ha.roundsTo_add hb) (by linarith),
        hb.roundsTo.toward (ha.roundsTo_add hb) (by linarith)⟩
    · have hinfinity := unpack_add_infinity hx hys
      exact ⟨toward_infinity hx.isNaN.2 hinfinity, toward_infinity hy.isNaN.2 hinfinity⟩
  · have hinfinity := unpack_infinity_add hxs hy
    exact ⟨toward_infinity hx.isNaN.2 hinfinity, toward_infinity hy.isNaN.2 hinfinity⟩

/-- The negated double is on the other side of zero. -/
theorem Toward.neg (h : Toward s 0 x) : Toward (-s) 0 (-x) := by
  rcases h.cases with ⟨a, ha, ha0⟩ | hxs
  · refine hasValue_zero.roundsTo.toward ha.neg.roundsTo ?_
    cases s
    · change (0 : ℝ) ≤ -a
      simpa [signed] using ha0
    · change -(0 : ℝ) ≤ - -a
      simpa [signed] using ha0
  · refine toward_infinity hasValue_zero.isNaN ?_
    rw [unpack_neg, hxs]
    rfl

/-! ### Extremes -/

theorem toward_extreme (s : Sign) (hx : x.isNaN = false) (hy : y.isNaN = false) :
    Toward s x (extreme s x y) ∧ Toward s y (extreme s x y) := by
  cases s
  · change (if x ≤ y then x else y) ≤ x ∧ (if x ≤ y then x else y) ≤ y
    split_ifs with h
    · exact ⟨le_self hx, h⟩
    · exact ⟨(le_or_le hx hy).resolve_left h, le_self hy⟩
  · change x ≤ (if x ≤ y then y else x) ∧ y ≤ (if x ≤ y then y else x)
    split_ifs with h
    · exact ⟨h, le_self hy⟩
    · exact ⟨le_self hx, (le_or_le hx hy).resolve_left h⟩

/-- **The extreme of many doubles** is on the side of all of them, finite or not. -/
theorem toward_foldl_extreme {α : Type} (s : Sign) {f : α → Float} {l : List α}
    (hx : x.isNaN = false) (hf : ∀ p ∈ l, (f p).isNaN = false) :
    Toward s x (l.foldl (fun m p => extreme s m (f p)) x) ∧
      ∀ p ∈ l, Toward s (f p) (l.foldl (fun m p => extreme s m (f p)) x) := by
  induction l generalizing x with
  | nil => exact ⟨toward_self s hx, by simp⟩
  | cons p l ih =>
    obtain ⟨hp, hl⟩ := List.forall_mem_cons.1 hf
    obtain ⟨hfirst, hsecond⟩ := toward_extreme s hx hp
    obtain ⟨hstart, hrest⟩ := ih hfirst.isNaN.2 hl
    rw [List.foldl_cons]
    refine ⟨hfirst.trans hstart, ?_⟩
    exact List.forall_mem_cons.2 ⟨hsecond.trans hstart, hrest⟩

/-! ### Sums of what is not negative -/

theorem zero_le_add (hx : 0 ≤ x) (hy : 0 ≤ y) : 0 ≤ x + y := by
  have hsum : Toward .positive x (x + y) := (Toward.add (s := .positive) hx hy).1
  exact Binary64.le_trans hx hsum

/-- A running sum is never taken down by what is not negative. -/
theorem le_foldl_add {l : List Float} (hx : 0 ≤ x) (hl : ∀ z ∈ l, 0 ≤ z) :
    x ≤ l.foldl (· + ·) x := by
  induction l generalizing x with
  | nil => exact le_self (isNaN_right_of_le hx)
  | cons z l ih =>
    obtain ⟨hz, hl⟩ := List.forall_mem_cons.1 hl
    have hstep : Toward .positive x (x + z) := (Toward.add (s := .positive) hx hz).1
    exact Binary64.le_trans hstep (ih (Binary64.le_trans hx hstep) hl)

/-- **A sum of what is not negative** is not negative, however many terms it has. -/
theorem zero_le_sum {l : List Float} (hl : ∀ z ∈ l, 0 ≤ z) : 0 ≤ sum l := by
  induction l using List.reverseRecOn with
  | nil => exact (hasValue_zero.le_iff hasValue_negZero).2 le_rfl
  | append_singleton l z ih =>
    rw [sum_append_singleton]
    exact zero_le_add (ih fun w hw => hl w (List.mem_append_left _ hw))
      (hl z (List.mem_append_right l (List.mem_singleton_self z)))

end

end Campaign.Binary64
