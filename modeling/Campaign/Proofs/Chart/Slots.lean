import Campaign.Proofs.Chart.Cover
import Campaign.Proofs.Chart.Drawing

/-!
# Bars stand in their slots

Below `2^52` the whole numbers and the halves between them are doubles. So half a bar more or less
than the middle of a slot is rounded to a double that is still in the slot, however little of the
width is left by the rounding, and bars of full width touch each other at most.

* `Placement.IsSlot`: what the layout of so many bars says of one of them.

## Main statements

* `InSlot.near_middle`: what is in a slot stays in it when it is rounded;
* `layout_isSlot`: the layout of a chart.
-/

namespace Campaign

open Binary64

/-- The bar at an index among `n`, between the ends `-1/2` and `n - 1/2` of the axis. -/
structure Placement.IsSlot (p : Placement) (n i : ℕ) (b : Bar) : Prop where
  label : p.label = b.label
  value : p.value = b.value
  center : HasValue p.center i
  left : ∃ x, HasValue p.left x ∧ -(1 / 2) ≤ x ∧ x ≤ i
  right : ∃ x, HasValue p.right x ∧ i ≤ x ∧ x ≤ n - 1 / 2
  low_le : p.whiskerLow ≤ p.value
  le_high : p.value ≤ p.whiskerHigh

namespace Chart

section

variable {i n : ℕ} {x : Float} {d : ℝ} {c : Chart}

/-- The middle of a slot and its two ends are doubles. -/
theorem onGrid_add_half (hi : i < 2 ^ 52) {k : ℤ} (hk : |k| ≤ 1) : OnGrid (i + k / 2) := by
  have htwice : |2 * (i : ℤ) + k| ≤ 2 ^ 53 := by
    rw [abs_le] at hk ⊢
    omega
  have hhalf : ((2 * i + k : ℤ) / 2 : ℝ) = i + k / 2 := by
    push_cast
    ring
  rw [← hhalf]
  exact onGrid_half htwice

/-- **What is in a slot stays in it** when it is rounded, and on its side of the middle. -/
theorem InSlot.near_middle (hx : InSlot i x d) (hi : i < 2 ^ 52) :
    ∃ y, HasValue x y ∧ |y - i| ≤ 1 / 2 ∧ (0 ≤ d → i ≤ y) ∧ (d ≤ 0 → y ≤ i) := by
  have hcenter : HasValue i.toFloat i := hasValue_natCast (by omega)
  have hvalue := hx.value hcenter.isFinite
  rw [nearest_of_onGrid hcenter.onGrid] at hvalue
  obtain ⟨hlow, hhigh⟩ := abs_le.1 hx.near
  have hright : OnGrid (i + (1 : ℤ) / 2) := onGrid_add_half hi (by norm_num)
  have hleft : OnGrid (i + (-1 : ℤ) / 2) := onGrid_add_half hi (by norm_num)
  refine ⟨_, hvalue, ?_, ?_, ?_⟩
  · have hle : nearest (i + d) ≤ i + (1 : ℤ) / 2 := nearest_le hright (by push_cast; linarith)
    have hge : i + (-1 : ℤ) / 2 ≤ nearest (i + d) := le_nearest hleft (by push_cast; linarith)
    push_cast at hle hge
    rw [abs_le]
    constructor
    · linarith
    · linarith
  · intro hd
    exact le_nearest hcenter.onGrid (by linarith)
  · intro hd
    exact nearest_le hcenter.onGrid (by linarith)

/-- The layout places every bar in its slot. -/
theorem isSlot_place (hvalid : c.validate = .ok ()) (hsize : c.bars.length < 2 ^ 52)
    (hi : i < c.bars.length) :
    (place c.barWidth i c.bars[i]).IsSlot c.bars.length i c.bars[i] := by
  obtain ⟨r, hr0, hsides⟩ := exists_inSlot_sides hvalid
  have hbar : checkBar c.bars[i] = .ok () :=
    ((validate_eq_ok_iff c).1 hvalid).2.2 _ (List.getElem_mem hi)
  have hi0 : (0 : ℝ) ≤ i := i.cast_nonneg
  have hstep : (i : ℝ) + 1 ≤ c.bars.length := by exact_mod_cast hi
  obtain ⟨x, hx, hxnear, -, hxle⟩ := (hsides i).1.near_middle (hi.trans hsize)
  obtain ⟨y, hy, hynear, hyge, -⟩ := (hsides i).2.near_middle (hi.trans hsize)
  rw [abs_le] at hxnear hynear
  exact
    { label := rfl
      value := rfl
      center := hasValue_natCast (by omega)
      left := ⟨x, hx, by linarith, hxle (by linarith)⟩
      right := ⟨y, hy, hyge hr0, by linarith⟩
      low_le := toward_whiskerEnd .negative c.barWidth i hbar
      le_high := toward_whiskerEnd .positive c.barWidth i hbar }

/-- **Bars keep apart**: the right side of one is not beyond the left side of a later one. -/
theorem pairwise_placements (hvalid : c.validate = .ok ()) (hsize : c.bars.length < 2 ^ 52) :
    c.placements.Pairwise fun p p' => p.right ≤ p'.left := by
  obtain ⟨r, -, hsides⟩ := exists_inSlot_sides hvalid
  rw [List.pairwise_iff_getElem]
  intro i j hi hj hij
  rw [length_placements] at hi hj
  have hfin (k : ℕ) (hk : k < c.bars.length) : k.toFloat.isFinite = true :=
    (hasValue_natCast (by omega)).isFinite
  have hright := (hsides i).2.value (hfin i hi)
  have hleft := (hsides j).1.value (hfin j hj)
  simp only [placements, List.getElem_mapIdx, place]
  rw [hright.le_iff hleft]
  exact nearest_slot_le hij (hfin j hj) (hsides i).2.near (hsides j).1.near

end

/-- **The layout of a chart that can be drawn** places its bars in their order, one in each slot,
with its middle at the index of the bar. No bar leaves the axis or its slot on either side of the
middle, and none reaches into the next. -/
theorem layout_isSlot {c : Chart} (hvalid : c.validate = .ok ())
    (hsize : c.bars.length < 2 ^ 52) :
    ∃ places, c.layout = .ok places ∧ places.length = c.bars.length ∧
      (∀ (i : ℕ) (p : Placement) (b : Bar), places[i]? = some p → c.bars[i]? = some b →
        p.IsSlot c.bars.length i b) ∧
      places.Pairwise fun p p' => p.right ≤ p'.left := by
  refine ⟨c.placements, layout_of_validate hvalid, length_placements, ?_,
    pairwise_placements hvalid hsize⟩
  intro i p b hp hb
  obtain ⟨hi, rfl⟩ := List.getElem?_eq_some_iff.1 hb
  rw [placements, List.getElem?_mapIdx, hb] at hp
  obtain rfl := Option.some.inj hp
  exact isSlot_place hvalid hsize hi

/-- Three bars of full width. -/
def crowded : Chart where
  title := "crowded"
  barWidth := 1
  bars := [⟨"a", 1, 0.1⟩, ⟨"b", -1e308, 1e308⟩, ⟨"c", 0, 5e-324⟩]

theorem layout_isSlot_of_crowded :
    crowded.validate = .ok () ∧ crowded.bars.length < 2 ^ 52 ∧
      crowded.layout.map (·.map fun p => (p.left, p.right)) =
        .ok [(-0.5, 0.5), (0.5, 1.5), (1.5, 2.5)] ∧
      ∃ places, crowded.layout = .ok places ∧ places.length = 3 ∧
        (∀ p, places[1]? = some p → p.IsSlot 3 1 ⟨"b", -1e308, 1e308⟩) ∧
        places.Pairwise fun p p' => p.right ≤ p'.left := by
  have hvalid : crowded.validate = .ok () := by decide +kernel
  have hsize : crowded.bars.length < 2 ^ 52 := by decide
  have hcolumns : crowded.layout.map (·.map fun p => (p.left, p.right)) =
      .ok [(-0.5, 0.5), (0.5, 1.5), (1.5, 2.5)] := by decide +kernel
  obtain ⟨places, hlayout, hlength, hslots, hapart⟩ := layout_isSlot hvalid hsize
  refine ⟨hvalid, hsize, hcolumns, places, hlayout, hlength, ?_, hapart⟩
  intro p hp
  exact hslots 1 p _ hp rfl

end Chart

end Campaign
