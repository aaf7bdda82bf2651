import Campaign.Proofs.Binary64.Special

/-!
# Extremes of doubles

The greatest of doubles that may overflow upwards is finite only if all of them are, and then it is
at least as large as each. The least of doubles that may overflow downwards is the mirror image, so
both are treated at once: a sign says which extreme is meant, and numbers are compared with that
sign.

* `extreme`: the greater or the smaller of two doubles.

## Main statements

* `FiniteOr.extreme`, `isFinite_of_extreme`: two doubles;
* `FiniteOr.foldl_extreme`, `exists_hasValue_foldl_extreme`: the extreme of many doubles;
* `exists_abs_foldl_extreme_le`: it is no larger than all of them.
-/

namespace Campaign.Binary64

open Float.Model (UnpackedFloat)
open Float.Model.UnpackedFloat

/-- The greater of two doubles for the plus sign, the smaller for the minus sign. -/
def extreme : Sign → Float → Float → Float
  | .positive, x, y => max x y
  | .negative, x, y => min x y

/-! ### Two doubles -/

section

variable {s : Sign} {x y : Float} {a b : ℝ}

/-- The extreme of two numbers is one of them, and on the side of both. -/
theorem HasValue.extreme (s : Sign) (hx : HasValue x a) (hy : HasValue y b) :
    ∃ m, HasValue (extreme s x y) m ∧ (m = a ∨ m = b) ∧ signed s a ≤ signed s m ∧
      signed s b ≤ signed s m := by
  cases s with
  | positive =>
    exact ⟨Max.max a b, hx.max hy, max_choice a b, le_max_left a b, le_max_right a b⟩
  | negative =>
    exact ⟨Min.min a b, hx.min hy, min_choice a b, neg_le_neg (min_le_left a b),
      neg_le_neg (min_le_right a b)⟩

theorem unpack_max (x y : Float) :
    (max x y).toModel.unpack =
      if (x.toModel.unpack.compare y.toModel.unpack).any (·.isLE) = true then y.toModel.unpack
      else x.toModel.unpack := by
  change (if x ≤ y then y else x).toModel.unpack = _
  simp only [le_eq_compare]
  split_ifs <;> rfl

theorem unpack_min (x y : Float) :
    (min x y).toModel.unpack =
      if (x.toModel.unpack.compare y.toModel.unpack).any (·.isLE) = true then x.toModel.unpack
      else y.toModel.unpack := by
  change (if x ≤ y then x else y).toModel.unpack = _
  simp only [le_eq_compare]
  split_ifs <;> rfl

/-- An infinity on the side of the extreme is the extreme. -/
theorem unpack_extreme_infinite (hx : FiniteOr s x) (hy : FiniteOr s y)
    (h : x.toModel.unpack = .infinity s ∨ y.toModel.unpack = .infinity s) :
    (Binary64.extreme s x y).toModel.unpack = .infinity s := by
  change x.toModel.unpack.isFinite = true ∨ _ at hx
  change y.toModel.unpack.isFinite = true ∨ _ at hy
  cases s with
  | positive =>
    change (max x y).toModel.unpack = _
    rw [unpack_max]
    generalize x.toModel.unpack = u at *
    generalize y.toModel.unpack = v at *
    rcases h with rfl | rfl
    · cases v <;> simp_all [UnpackedFloat.compare, UnpackedFloat.isFinite]
    · cases u <;> simp_all [UnpackedFloat.compare, UnpackedFloat.isFinite]
  | negative =>
    change (min x y).toModel.unpack = _
    rw [unpack_min]
    generalize x.toModel.unpack = u at *
    generalize y.toModel.unpack = v at *
    rcases h with rfl | rfl
    · cases v <;> simp_all [UnpackedFloat.compare, UnpackedFloat.isFinite]
    · cases u <;> simp_all [UnpackedFloat.compare, UnpackedFloat.isFinite]

theorem FiniteOr.extreme (hx : FiniteOr s x) (hy : FiniteOr s y) :
    FiniteOr s (extreme s x y) := by
  rcases id hx with hfx | hix
  · rcases id hy with hfy | hiy
    · obtain ⟨m, hm, -⟩ := (hasValue_toReal hfx).extreme s (hasValue_toReal hfy)
      exact hm.finiteOr
    · exact .inr (unpack_extreme_infinite hx hy (.inr hiy))
  · exact .inr (unpack_extreme_infinite hx hy (.inl hix))

/-- **A finite extreme** is that of finite doubles. -/
theorem isFinite_of_extreme (hx : FiniteOr s x) (hy : FiniteOr s y)
    (h : (extreme s x y).isFinite = true) : x.isFinite = true ∧ y.isFinite = true := by
  have hnot : ¬(x.toModel.unpack = .infinity s ∨ y.toModel.unpack = .infinity s) := by
    intro hinfinite
    change (Binary64.extreme s x y).toModel.unpack.isFinite = true at h
    rw [unpack_extreme_infinite hx hy hinfinite] at h
    exact Bool.false_ne_true h
  exact ⟨hx.resolve_right fun hx => hnot (.inl hx), hy.resolve_right fun hy => hnot (.inr hy)⟩

end

/-! ### Many doubles -/

section

variable {α : Type} {s : Sign} {f : α → Float} {x : Float} {a : ℝ} {l : List α}

theorem FiniteOr.foldl_extreme (hx : FiniteOr s x) (hf : ∀ p ∈ l, FiniteOr s (f p)) :
    FiniteOr s (l.foldl (fun m p => Binary64.extreme s m (f p)) x) := by
  induction l generalizing x with
  | nil => exact hx
  | cons p l ih =>
    obtain ⟨hp, hl⟩ := List.forall_mem_cons.1 hf
    exact ih (hx.extreme hp) hl

/-- **A finite extreme of many doubles** is on the side of all of them, and all are finite. -/
theorem exists_hasValue_foldl_extreme (hx : HasValue x a) (hf : ∀ p ∈ l, FiniteOr s (f p))
    (h : (l.foldl (fun m p => extreme s m (f p)) x).isFinite = true) :
    ∃ m, HasValue (l.foldl (fun m p => extreme s m (f p)) x) m ∧ signed s a ≤ signed s m ∧
      ∀ p ∈ l, ∃ b, HasValue (f p) b ∧ signed s b ≤ signed s m := by
  induction l using List.reverseRecOn with
  | nil => exact ⟨a, hx, le_rfl, by simp⟩
  | append_singleton l p ih =>
    obtain ⟨hl, hp⟩ := List.forall_mem_append.1 hf
    replace hp := hp p (List.mem_singleton_self p)
    rw [List.foldl_append, List.foldl_cons, List.foldl_nil] at h ⊢
    obtain ⟨hfin, hfinp⟩ := isFinite_of_extreme (hx.finiteOr.foldl_extreme hl) hp h
    obtain ⟨m, hm, ham, hall⟩ := ih hl hfin
    have hvalue := hasValue_toReal hfinp
    obtain ⟨n, hn, -, hmn, hpn⟩ := hm.extreme s hvalue
    refine ⟨n, hn, ham.trans hmn, List.forall_mem_append.2 ⟨fun q hq => ?_, ?_⟩⟩
    · obtain ⟨b, hb, hbm⟩ := hall q hq
      exact ⟨b, hb, hbm.trans hmn⟩
    · simpa using ⟨toReal (f p), hvalue, hpn⟩

/-- The extreme of numbers up to a bound is up to it. -/
theorem exists_abs_foldl_extreme_le (s : Sign) {B : ℝ} (hx : HasValue x a) (ha : |a| ≤ B)
    (hf : ∀ p ∈ l, ∃ b, HasValue (f p) b ∧ |b| ≤ B) :
    ∃ m, HasValue (l.foldl (fun m p => extreme s m (f p)) x) m ∧ |m| ≤ B := by
  induction l generalizing x a with
  | nil => exact ⟨a, hx, ha⟩
  | cons p l ih =>
    obtain ⟨⟨b, hb, hbB⟩, hl⟩ := List.forall_mem_cons.1 hf
    obtain ⟨m, hm, hchoice, -⟩ := hx.extreme s hb
    refine ih hm ?_ hl
    rcases hchoice with rfl | rfl
    · exact ha
    · exact hbB

end

end Campaign.Binary64
