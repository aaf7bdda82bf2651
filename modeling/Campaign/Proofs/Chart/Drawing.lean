import Campaign.Proofs.Chart.Cover
import Campaign.Proofs.Chart.Pixels

/-!
# Drawings stay inside the axes

If the ends of the range have a finite difference, the rows of a drawing are those of numbers
between the ends. The columns are those of numbers in slots, from half a slot left of the first to
half a slot left of the one behind the last, and slots keep their order. So whatever is drawn is
inside the axes, bars do not overlap, and whiskers are upright.

* `IsInPlot`, `Box.IsInside`, `Segment.IsInside`: what is inside the axes;
* `Plane.InSlot`: a coordinate at most half a slot away from the middle of a slot;
* `Drawing.ShowsBar`, `Drawing.IsInside`: what a drawing shows of a bar, and where all of it is.

## Main statements

* `column_mem`, `column_le`: the columns of slots;
* `IsFrame.row_mem`, `IsFrame.row_anti`: the rows of a range;
* `draw_isInside`: the drawing of a chart.
-/

namespace Campaign

open Binary64

/-! ### Inside the axes -/

/-- The pixels that the axes span. -/
def IsInPlot (x y : ℤ) : Prop := (80 ≤ x ∧ x ≤ 779) ∧ 55 ≤ y ∧ y ≤ 539

/-- A rectangle inside the axes. -/
structure Box.IsInside (b : Box) : Prop where
  width : 0 ≤ b.width
  height : 0 ≤ b.height
  corner : IsInPlot b.x b.y
  opposite : IsInPlot (b.x + b.width) (b.y + b.height)

/-- A line inside the axes. -/
structure Segment.IsInside (s : Segment) : Prop where
  first : IsInPlot s.x₁ s.y₁
  second : IsInPlot s.x₂ s.y₂

theorem Box.isInside_spanning {x₁ y₁ x₂ y₂ : ℤ} (h₁ : IsInPlot x₁ y₁) (h₂ : IsInPlot x₂ y₂) :
    (spanning x₁ y₁ x₂ y₂).IsInside := by
  unfold IsInPlot at *
  constructor <;> simp only [spanning, IsInPlot] <;> omega

namespace Chart

/-! ### Columns -/

/-- A coordinate that stands in a slot, by its distance from the middle. -/
structure InSlot (i : ℕ) (x : Float) (d : ℝ) : Prop where
  near : |d| ≤ 1 / 2
  value : i.toFloat.isFinite = true → HasValue x (nearest (nearest i + d))

/-- The right end of the horizontal axis. -/
noncomputable def rightEnd (n : ℕ) : ℝ := toReal (n.toFloat - 0.5)

section

variable {i j n : ℕ} {x y w : Float} {d e : ℝ} {range : Float × Float}

theorem inSlot_center (i : ℕ) : InSlot i i.toFloat 0 := by
  refine ⟨by norm_num, fun hi => ?_⟩
  rw [add_zero, nearest_of_onGrid (onGrid_nearest i)]
  exact hasValue_natCast_of_isFinite hi

theorem inSlot_add (i : ℕ) (hw : HasValue w d) (hd : |d| ≤ 1 / 2) : InSlot i (i.toFloat + w) d :=
  ⟨hd, fun hi => (hasValue_natCast_of_isFinite hi).add hw (abs_nearest_slot_lt hi hd)⟩

theorem inSlot_sub (i : ℕ) (hw : HasValue w d) (hd : |d| ≤ 1 / 2) :
    InSlot i (i.toFloat - w) (-d) := by
  rw [Binary64.sub_eq_add_neg]
  exact inSlot_add i hw.neg (by rwa [abs_neg])

/-- Both sides of a bar stand in the slot of its middle. -/
theorem exists_inSlot_sides {c : Chart} (h : c.validate = .ok ()) :
    ∃ r, 0 ≤ r ∧ ∀ i : ℕ, InSlot i (i.toFloat - c.barWidth / 2) (-r) ∧
      InSlot i (i.toFloat + c.barWidth / 2) r := by
  obtain ⟨r, hr, hr0, hr1⟩ := exists_hasValue_half h
  have hhalf : |r| ≤ 1 / 2 := by rwa [abs_of_nonneg hr0]
  exact ⟨r, hr0, fun i => ⟨inSlot_sub i hr hhalf, inSlot_add i hr hhalf⟩⟩

theorem rightEnd_eq (hn : n.toFloat.isFinite = true) :
    rightEnd n = nearest (nearest n + -(1 / 2)) :=
  ((inSlot_sub n hasValue_half (by norm_num)).value hn).toReal_eq

/-- The horizontal axis, if it is finite. -/
theorem exists_axis (hn : 0 < n)
    (h : ((plane n range).xMax - (plane n range).xMin).isFinite = true) :
    n.toFloat.isFinite = true ∧ HasValue (plane n range).xMin (-(1 / 2)) ∧
      HasValue ((plane n range).xMax - (plane n range).xMin) (nearest (rightEnd n - -(1 / 2))) ∧
      0 < nearest (rightEnd n - -(1 / 2)) := by
  have hmax : (n.toFloat - 0.5).isFinite = true := (isFinite_of_sub h).1
  have hfin : n.toFloat.isFinite = true := (isFinite_of_sub hmax).1
  have hlow : HasValue (plane n range).xMin (-(1 / 2)) := hasValue_half.neg
  have hhigh : HasValue (plane n range).xMax (rightEnd n) := hasValue_toReal hmax
  have hone : 1 ≤ nearest n := le_nearest onGrid_one (by exact_mod_cast hn)
  have hright : 1 / 2 ≤ rightEnd n := by
    rw [rightEnd_eq hfin]
    exact le_nearest hasValue_half.onGrid (by linarith)
  have hwidth : 1 ≤ nearest (rightEnd n - -(1 / 2)) := le_nearest onGrid_one (by linarith)
  exact ⟨hfin, hlow, hhigh.sub_of_isFinite hlow h, zero_lt_one.trans_le hwidth⟩

/-- A slot lies between the ends of the axis. -/
theorem InSlot.mem_axis (hx : InSlot i x d) (hi : i < n) (hn : n.toFloat.isFinite = true) :
    HasValue x (nearest (nearest i + d)) ∧ -(1 / 2) ≤ nearest (nearest i + d) ∧
      nearest (nearest i + d) ≤ rightEnd n := by
  have hmiddle : 0 ≤ nearest (i : ℝ) := nearest_nonneg i.cast_nonneg
  have hd := (abs_le.1 hx.near).1
  rw [rightEnd_eq hn]
  exact ⟨hx.value (hasValue_natCast_of_le hi.le hn).isFinite,
    le_nearest hasValue_half.neg.onGrid (by linarith),
    nearest_slot_le hi hn hx.near (by norm_num)⟩

/-- **The columns of a slot** are inside the axes. -/
theorem InSlot.column_mem (hx : InSlot i x d) (hi : i < n) :
    80 ≤ (plane n range).column x ∧ (plane n range).column x ≤ 779 := by
  by_cases hfin : ((plane n range).xMax - (plane n range).xMin).isFinite = true
  · obtain ⟨hn, hlow, hwidth, hspan⟩ := exists_axis (i.zero_le.trans_lt hi) hfin
    obtain ⟨hvalue, hleft, hright⟩ := hx.mem_axis hi hn
    rw [Plane.column_eq hvalue hlow hwidth hspan hleft hright]
    exact columnOf_mem (portion_nonneg hspan hleft) (portion_le_one hspan hright)
  · rw [Plane.column_of_infinite hfin]
    exact ⟨le_rfl, by norm_num⟩

/-- **Slots keep their order**, and so do the coordinates in a slot. -/
theorem InSlot.column_le (hx : InSlot i x d) (hy : InSlot j y e) (hj : j < n)
    (h : i < j ∨ i = j ∧ d ≤ e) : (plane n range).column x ≤ (plane n range).column y := by
  have hi : i < n := by omega
  by_cases hfin : ((plane n range).xMax - (plane n range).xMin).isFinite = true
  · obtain ⟨hn, hlow, hwidth, hspan⟩ := exists_axis (i.zero_le.trans_lt hi) hfin
    obtain ⟨hxvalue, hxleft, hxright⟩ := hx.mem_axis hi hn
    obtain ⟨hyvalue, hyleft, hyright⟩ := hy.mem_axis hj hn
    have hle : nearest (nearest i + d) ≤ nearest (nearest j + e) := by
      rcases h with hij | ⟨rfl, hde⟩
      · exact nearest_slot_le hij (hasValue_natCast_of_le hj.le hn).isFinite hx.near hy.near
      · exact nearest_mono (by linarith)
    rw [Plane.column_eq hxvalue hlow hwidth hspan hxleft hxright,
      Plane.column_eq hyvalue hlow hwidth hspan hyleft hyright]
    exact columnOf_mono (portion_mono hspan hle)
  · rw [Plane.column_of_infinite hfin, Plane.column_of_infinite hfin]

end

/-! ### Rows -/

section

variable {places : List Placement} {range : Float × Float} {lo hi : ℝ} {n : ℕ} {x y : Float}
  {a b : ℝ}

/-- **The rows of a range** are inside the axes. -/
theorem IsFrame.row_mem (h : IsFrame places range lo hi) (hx : HasValue x a) (hlo : lo ≤ a)
    (hhi : a ≤ hi) : 55 ≤ (plane n range).row x ∧ (plane n range).row x ≤ 539 := by
  have hrow : (plane n range).row x = rowOf (portion lo hi a) :=
    Plane.row_eq hx h.low h.span h.span_pos hlo hhi
  rw [hrow]
  exact rowOf_mem (portion_nonneg h.span_pos hlo) (portion_le_one h.span_pos hhi)

/-- Larger numbers are drawn higher. -/
theorem IsFrame.row_anti (h : IsFrame places range lo hi) (hx : HasValue x a)
    (hy : HasValue y b) (hlo : lo ≤ a) (hab : a ≤ b) (hhi : b ≤ hi) :
    (plane n range).row y ≤ (plane n range).row x := by
  have hrow {z : Float} {c : ℝ} (hz : HasValue z c) (hlo : lo ≤ c) (hhi : c ≤ hi) :
      (plane n range).row z = rowOf (portion lo hi c) :=
    Plane.row_eq hz h.low h.span h.span_pos hlo hhi
  rw [hrow hx hlo (hab.trans hhi), hrow hy (hlo.trans hab) hhi]
  exact rowOf_anti (portion_mono h.span_pos hab)

/-- The base line is at zero. -/
theorem IsFrame.clamp_eq (h : IsFrame places range lo hi) : clamp range.1 range.2 0 = 0 := by
  apply clamp_of_between
  · exact (h.low.le_iff hasValue_zero).2 h.low_nonpos
  · exact (hasValue_zero.le_iff h.high).2 (by linarith [h.high_pos])

end

end Chart

/-! ### Drawings -/

/-- What a drawing of `n` bars shows of the bar at an index: its rectangle, filled and outlined, its
whisker, and behind the whiskers of all bars its low and its high cap. -/
structure Drawing.ShowsBar (d : Drawing) (p : Plane) (n i : ℕ) (b : Placement) : Prop where
  bar : d.bars[i]? =
    some (.spanning (p.column b.left) (p.row 0) (p.column b.right) (p.row b.value))
  outline : d.outlines[i]? = d.bars[i]?
  whisker : d.segments[i]? = some (p.segment b.center b.whiskerLow b.center b.whiskerHigh)
  lowCap : d.segments[n + 2 * i]? =
    some (p.segment (b.center - Plane.capHalfWidth) b.whiskerLow (b.center + Plane.capHalfWidth)
      b.whiskerLow)
  highCap : d.segments[n + 2 * i + 1]? =
    some (p.segment (b.center - Plane.capHalfWidth) b.whiskerHigh (b.center + Plane.capHalfWidth)
      b.whiskerHigh)

/-- A drawing of `n` bars with nothing outside the axes and nothing out of place. -/
structure Drawing.IsInside (d : Drawing) (n : ℕ) : Prop where
  length_bars : d.bars.length = n
  length_outlines : d.outlines.length = n
  length_segments : d.segments.length = n + 2 * n
  bars : ∀ b ∈ d.bars, b.IsInside
  segments : ∀ s ∈ d.segments, s.IsInside
  apart : d.bars.Pairwise fun b b' => b.x + b.width ≤ b'.x
  upright : ∀ s ∈ d.segments.take n, s.x₁ = s.x₂ ∧ s.y₂ ≤ s.y₁

/-- The members of a list of pairs in a row. -/
theorem getElem?_flatMap_pair {α β : Type} (f g : α → β) (l : List α) (i : ℕ) :
    (l.flatMap fun a => [f a, g a])[2 * i]? = l[i]?.map f ∧
      (l.flatMap fun a => [f a, g a])[2 * i + 1]? = l[i]?.map g := by
  induction l generalizing i with
  | nil => simp
  | cons a l ih =>
    cases i with
    | zero => simp
    | succ i => simpa [Nat.mul_succ, List.flatMap_cons] using ih i

namespace Chart

theorem exists_hasValue_capHalfWidth :
    ∃ r, HasValue Plane.capHalfWidth r ∧ |r| ≤ 1 / 2 := by
  refine ⟨_, hasValue_toReal (by decide), ?_⟩
  rw [toReal_of_value (s := false) (m := 5764607523034235) (q := -56) (by decide),
    abs_of_nonneg] <;> norm_num

/-- The axes of a chart. -/
def axes (c : Chart) : Plane := plane c.bars.length (rangeOf c.placements)

section

variable {c : Chart} {lo hi : ℝ} {i j : ℕ}

theorem length_placements : c.placements.length = c.bars.length := List.length_mapIdx

theorem draw_of_validate (h : c.validate = .ok ()) : c.draw = .ok (c.drawPlaces c.placements) := by
  rw [draw, layout_of_validate h]
  rfl

theorem bars_drawPlaces :
    (c.drawPlaces c.placements).bars = c.placements.map c.axes.box := by
  rw [axes, ← length_placements]
  rfl

theorem outlines_drawPlaces :
    (c.drawPlaces c.placements).outlines = (c.drawPlaces c.placements).bars := rfl

theorem segments_drawPlaces :
    (c.drawPlaces c.placements).segments =
      c.placements.map c.axes.whisker ++ c.placements.flatMap c.axes.caps := by
  rw [axes, ← length_placements]
  rfl

theorem segments_whiskers :
    (c.drawPlaces c.placements).segments.take c.bars.length =
      c.placements.map c.axes.whisker := by
  rw [segments_drawPlaces, ← length_placements, List.take_left' (List.length_map _)]

theorem getElem?_segments_caps (k : ℕ) :
    (c.drawPlaces c.placements).segments[c.bars.length + k]? =
      (c.placements.flatMap c.axes.caps)[k]? := by
  have hlength : (c.placements.map c.axes.whisker).length = c.bars.length := by
    rw [List.length_map, length_placements]
  rw [segments_drawPlaces, List.getElem?_append_right (by omega), hlength, Nat.add_sub_cancel_left]

theorem getElem?_caps (i : ℕ) :
    (c.placements.flatMap c.axes.caps)[2 * i]? = c.placements[i]?.map (fun b =>
        c.axes.segment (b.center - Plane.capHalfWidth) b.whiskerLow
          (b.center + Plane.capHalfWidth) b.whiskerLow) ∧
      (c.placements.flatMap c.axes.caps)[2 * i + 1]? = c.placements[i]?.map (fun b =>
        c.axes.segment (b.center - Plane.capHalfWidth) b.whiskerHigh
          (b.center + Plane.capHalfWidth) b.whiskerHigh) :=
  getElem?_flatMap_pair _ _ c.placements i

variable (hvalid : c.validate = .ok ())
  (hframe : IsFrame c.placements (rangeOf c.placements) lo hi)

include hframe

theorem isInPlot {x y : Float} {d a : ℝ} (hx : InSlot i x d) (hi' : i < c.bars.length)
    (hy : HasValue y a) (hlo : lo ≤ a) (hhi : a ≤ hi) :
    IsInPlot (c.axes.column x) (c.axes.row y) :=
  ⟨hx.column_mem hi', hframe.row_mem hy hlo hhi⟩

theorem box_eq (b : Placement) :
    c.axes.box b = .spanning (c.axes.column b.left) (c.axes.row 0) (c.axes.column b.right)
      (c.axes.row b.value) := by
  have hbase : clamp c.axes.yMin c.axes.yMax 0 = 0 := hframe.clamp_eq
  exact Plane.box_of_clamp hbase b

include hvalid in
theorem isInside_box {b : Placement} (hb : b ∈ c.placements) : (c.axes.box b).IsInside := by
  have hbetween := hframe.between b hb
  obtain ⟨i, hi', rfl⟩ := mem_placements.1 hb
  obtain ⟨r, -, hsides⟩ := exists_inSlot_sides hvalid
  have hbase : lo ≤ 0 ∧ 0 ≤ hi := ⟨hframe.low_nonpos, by linarith [hframe.high_pos]⟩
  rw [box_eq hframe]
  refine Box.isInside_spanning ?_ ?_
  · exact isInPlot hframe (hsides i).1 hi' hasValue_zero hbase.1 hbase.2
  · exact isInPlot hframe (hsides i).2 hi' (hasValue_toReal hbetween.value)
      (hbetween.le_low.trans hbetween.low_le) (hbetween.le_high.trans hbetween.high_le)

/-- The two ends of a whisker lie in the range. -/
theorem whisker_mem {b : Placement} (hb : b ∈ c.placements) {y : Float}
    (hy : y = b.whiskerLow ∨ y = b.whiskerHigh) :
    ∃ a, HasValue y a ∧ lo ≤ a ∧ a ≤ hi := by
  obtain ⟨-, hlow, hhigh, h1, h2, h3, h4⟩ := hframe.between b hb
  rcases hy with rfl | rfl
  · exact ⟨_, hasValue_toReal hlow, h1, (h2.trans h3).trans h4⟩
  · exact ⟨_, hasValue_toReal hhigh, (h1.trans h2).trans h3, h4⟩

theorem isInside_whisker {b : Placement} (hb : b ∈ c.placements) :
    (c.axes.whisker b).IsInside ∧ (c.axes.whisker b).x₁ = (c.axes.whisker b).x₂ ∧
      (c.axes.whisker b).y₂ ≤ (c.axes.whisker b).y₁ := by
  obtain ⟨y₁, hy₁, hlo₁, hhi₁⟩ := whisker_mem hframe hb (.inl rfl)
  obtain ⟨y₂, hy₂, hlo₂, hhi₂⟩ := whisker_mem hframe hb (.inr rfl)
  obtain ⟨-, -, -, -, hlow, hhigh, -⟩ := hframe.between b hb
  obtain ⟨i, hi', rfl⟩ := mem_placements.1 hb
  refine ⟨⟨isInPlot hframe (inSlot_center i) hi' hy₁ hlo₁ hhi₁,
    isInPlot hframe (inSlot_center i) hi' hy₂ hlo₂ hhi₂⟩, rfl, ?_⟩
  refine hframe.row_anti hy₁ hy₂ hlo₁ ?_ hhi₂
  rw [← hy₁.toReal_eq, ← hy₂.toReal_eq]
  exact hlow.trans hhigh

theorem isInside_cap {b : Placement} (hb : b ∈ c.placements) {s : Segment}
    (hs : s ∈ c.axes.caps b) : s.IsInside := by
  obtain ⟨y, hy, rfl⟩ := List.mem_map.1 hs
  obtain ⟨a, ha, hlo, hhi⟩ := whisker_mem hframe hb (by simpa using hy)
  obtain ⟨r, hr, hr1⟩ := exists_hasValue_capHalfWidth
  obtain ⟨i, hi', rfl⟩ := mem_placements.1 hb
  exact ⟨isInPlot hframe (inSlot_sub i hr hr1) hi' ha hlo hhi,
    isInPlot hframe (inSlot_add i hr hr1) hi' ha hlo hhi⟩

include hvalid in
/-- **Bars do not overlap.** -/
theorem pairwise_boxes :
    (c.placements.map c.axes.box).Pairwise fun b b' => b.x + b.width ≤ b'.x := by
  obtain ⟨r, hr0, hsides⟩ := exists_inSlot_sides hvalid
  rw [List.pairwise_map, List.pairwise_iff_getElem]
  intro i j hi' hj' hij
  have hlength : c.placements.length = c.bars.length := length_placements
  have hbar (k : ℕ) (hk : k < c.bars.length) :
      c.axes.column (k.toFloat - c.barWidth / 2) ≤ c.axes.column (k.toFloat + c.barWidth / 2) :=
    (hsides k).1.column_le (hsides k).2 hk (.inr ⟨rfl, by linarith⟩)
  have hgap : c.axes.column (i.toFloat + c.barWidth / 2) ≤
      c.axes.column (j.toFloat - c.barWidth / 2) :=
    (hsides i).2.column_le (hsides j).1 (by omega) (.inl hij)
  have hi'' := hbar i (by omega)
  have hj'' := hbar j (by omega)
  rw [box_eq hframe, box_eq hframe]
  simp only [placements, List.getElem_mapIdx, place, Box.spanning]
  omega

/-- What is drawn of a bar. -/
theorem showsBar_drawPlaces {b : Placement} (hb : c.placements[i]? = some b) :
    (c.drawPlaces c.placements).ShowsBar c.axes c.bars.length i b := by
  obtain ⟨hlow, hhigh⟩ := getElem?_caps (c := c) i
  have hi' : i < c.bars.length := by
    rw [← length_placements]
    exact (List.getElem?_eq_some_iff.1 hb).1
  refine
    { bar := ?_
      outline := rfl
      whisker := ?_
      lowCap := ?_
      highCap := ?_ }
  · rw [bars_drawPlaces, List.getElem?_map, hb, Option.map_some, box_eq hframe]
  · rw [← List.getElem?_take_of_lt hi', segments_whiskers, List.getElem?_map, hb]
    rfl
  · rw [getElem?_segments_caps, hlow, hb]
    rfl
  · rw [Nat.add_assoc, getElem?_segments_caps, hhigh, hb]
    rfl

include hvalid in
/-- Where all that is drawn is. -/
theorem isInside_drawPlaces : (c.drawPlaces c.placements).IsInside c.bars.length := by
  have hlength := length_placements (c := c)
  refine
    { length_bars := by rw [bars_drawPlaces, List.length_map, hlength]
      length_outlines := by
        rw [outlines_drawPlaces, bars_drawPlaces, List.length_map, hlength]
      length_segments := ?_
      bars := ?_
      segments := ?_
      apart := bars_drawPlaces ▸ pairwise_boxes hvalid hframe
      upright := ?_ }
  · have hcaps : (c.placements.flatMap c.axes.caps).length = 2 * c.placements.length := by
      simp [List.length_flatMap, Plane.caps, Nat.mul_comm]
    rw [segments_drawPlaces, List.length_append, List.length_map, hcaps, hlength]
  · rw [bars_drawPlaces, List.forall_mem_map]
    exact fun b hb => isInside_box hvalid hframe hb
  · rw [segments_drawPlaces, List.forall_mem_append, List.forall_mem_map]
    refine ⟨fun b hb => (isInside_whisker hframe hb).1, fun s hs => ?_⟩
    obtain ⟨b, hb, hs⟩ := List.mem_flatMap.1 hs
    exact isInside_cap hframe hb hs
  · rw [segments_whiskers, List.forall_mem_map]
    exact fun b hb => (isInside_whisker hframe hb).2

end

/-- **The drawing of a chart whose range is finite** shows every bar with its whisker and its caps,
in order. All of it is inside the axes, no bar reaches into the next, and every whisker goes up. -/
theorem draw_isInside {c : Chart} {range : Float × Float} (hvalid : c.validate = .ok ())
    (hrange : c.yRange = .ok range) (hfin : (range.2 - range.1).isFinite = true) :
    ∃ places d, c.layout = .ok places ∧ c.draw = .ok d ∧ places.length = c.bars.length ∧
      (∀ i b, places[i]? = some b →
        d.ShowsBar (plane c.bars.length range) c.bars.length i b) ∧
      d.IsInside c.bars.length := by
  obtain rfl : rangeOf c.placements = range :=
    Except.ok.inj ((yRange_of_validate hvalid).symm.trans hrange)
  obtain ⟨lo, hi, hframe⟩ := exists_isFrame (fun p hp => isSound_of_mem hvalid hp) hfin
  exact ⟨c.placements, c.drawPlaces c.placements, layout_of_validate hvalid,
    draw_of_validate hvalid, length_placements, fun i b hb => showsBar_drawPlaces hframe hb,
    isInside_drawPlaces hvalid hframe⟩

/-- A chart with a bar on either side of the base line. -/
def mixed : Chart where
  title := "mixed"
  bars := [⟨"up", 3, 1⟩, ⟨"down", -2, 5⟩]

theorem draw_isInside_of_mixed :
    mixed.validate = .ok () ∧
      ∃ range d, mixed.yRange = .ok range ∧ (range.2 - range.1).isFinite = true ∧
        mixed.draw = .ok d ∧ d.IsInside 2 := by
  have hvalid : mixed.validate = .ok () := by decide +kernel
  have hfin : ((rangeOf mixed.placements).2 - (rangeOf mixed.placements).1).isFinite = true := by
    decide +kernel
  obtain ⟨places, d, -, hdraw, -, -, hinside⟩ :=
    draw_isInside hvalid (yRange_of_validate hvalid) hfin
  exact ⟨hvalid, _, d, yRange_of_validate hvalid, hfin, hdraw, hinside⟩

end Chart

end Campaign
