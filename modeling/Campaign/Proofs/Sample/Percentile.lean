import Campaign.Proofs.Binary64.Blend
import Campaign.Proofs.Binary64.Index
import Campaign.Proofs.Binary64.Sides
import Campaign.Proofs.Sample.Figures

/-!
# Percentiles

A percentile of ascending data is read off at an index that is computed from its rank; between two
indexes it is a blend of the two neighbours. The index is within the data for all ranks, however
many values there are up to `2^53 + 3`, and it grows with the rank.

The interpolation is rounded, so a percentile may lie outside its neighbours and a higher rank may
have a lower percentile. How far is counted in units in the last place: at most one outside, at most
three down.

* `percentileIndex`: the index at which a percentile is read off.

## Main statements

* `exists_percentile`: the percentiles of ascending data, their neighbours and their order.
-/

namespace Campaign

open Binary64

/-! ### The index -/

/-- Where a percentile is read off, as the program computes it. -/
def percentileIndex (data : List Float) (p : Float) : Float := p / 100 * (data.length - 1).toFloat

/-- The number of that index, `d` being the greatest index. -/
noncomputable def indexOf (d : ℕ) (p : ℝ) : ℝ := nearest (nearest (p / 100) * nearest d)

section

variable {d : ℕ} {p q : ℝ}

/-- Up to `2^53 + 2` no number is rounded up. -/
theorem nearest_natCast_le (h : d ≤ 2 ^ 53 + 2) : nearest (d : ℝ) ≤ d := by
  obtain hsmall | rfl | rfl : d ≤ 2 ^ 53 ∨ d = 2 ^ 53 + 1 ∨ d = 2 ^ 53 + 2 := by omega
  · exact (nearest_of_onGrid (onGrid_natCast hsmall)).le
  · have hdown : ((2 ^ 53 + 1 : ℕ)).toFloat = (2 ^ 53 : ℕ).toFloat := by decide +kernel
    have hvalue := hasValue_natCast_nearest (n := 2 ^ 53 + 1)
      (abs_nearest_lt (k := 54) (by norm_num) (by norm_num))
    rw [hdown] at hvalue
    have heven := hasValue_natCast (n := 2 ^ 53) le_rfl
    rw [← hvalue.toReal_eq, heven.toReal_eq]
    norm_num
  · have hgrid : OnGrid ((2 ^ 53 + 2 : ℕ) : ℝ) :=
      ⟨2 ^ 52 + 1, 1, by norm_num, by norm_num, by norm_num⟩
    exact (nearest_of_onGrid hgrid).le

theorem nearest_percent_nonneg (h0 : 0 ≤ p) : 0 ≤ nearest (p / 100) :=
  nearest_nonneg (by positivity)

theorem nearest_percent_le_one (h1 : p ≤ 100) : nearest (p / 100) ≤ 1 :=
  nearest_le onGrid_one (by linarith)

theorem indexOf_nonneg (h0 : 0 ≤ p) : 0 ≤ indexOf d p :=
  nearest_nonneg (mul_nonneg (nearest_percent_nonneg h0) (nearest_nonneg (Nat.cast_nonneg d)))

theorem indexOf_le_nearest (h1 : p ≤ 100) : indexOf d p ≤ nearest d :=
  nearest_le (onGrid_nearest _)
    (mul_le_of_le_one_left (nearest_nonneg (Nat.cast_nonneg d)) (nearest_percent_le_one h1))

theorem indexOf_le (hd : d ≤ 2 ^ 53 + 2) (h1 : p ≤ 100) : indexOf d p ≤ d :=
  (indexOf_le_nearest h1).trans (nearest_natCast_le hd)

theorem indexOf_mono (h : p ≤ q) : indexOf d p ≤ indexOf d q := by
  have hd : 0 ≤ nearest (d : ℝ) := nearest_nonneg (Nat.cast_nonneg d)
  have hpercent : nearest (p / 100) ≤ nearest (q / 100) := nearest_mono (by gcongr)
  exact nearest_mono (by gcongr)

theorem hasValue_hundred : HasValue 100 100 := by
  have := hasValue_natCast (n := 100) (by norm_num)
  rwa [Nat.cast_ofNat] at this

theorem hasValue_percentileIndex {data : List Float} {x : Float} (hx : HasValue x p) (h0 : 0 ≤ p)
    (h1 : p ≤ 100) (hsize : data.length - 1 ≤ 2 ^ 53 + 2) :
    HasValue (percentileIndex data x) (indexOf (data.length - 1) p) := by
  have hd : |((data.length - 1 : ℕ) : ℝ)| ≤ 2 ^ 54 := by
    rw [Nat.abs_cast]
    exact_mod_cast hsize.trans (by norm_num)
  have hpercent := hx.div hasValue_hundred (by norm_num) (abs_nearest_lt (k := 0) (by norm_num) (by
    rw [abs_of_nonneg (by positivity)]
    linarith))
  refine hpercent.mul (hasValue_natCast_nearest (abs_nearest_lt (by norm_num) hd)) ?_
  have hindex := indexOf_nonneg (d := data.length - 1) h0
  change |indexOf _ p| < _
  rw [abs_of_nonneg hindex]
  refine ((indexOf_le_nearest h1).trans (le_abs_self _)).trans_lt ?_
  exact abs_nearest_lt (by norm_num) hd

end

/-! ### The value -/

section

variable {data : List Float} {p a b : Float} {r A B : ℝ}

theorem percentile?_of_two_le (h : 2 ≤ data.length) :
    percentile? data p =
      if truncate (percentileIndex data p) = ceilNat (percentileIndex data p) then
        data[truncate (percentileIndex data p)]?
      else do
        let a ← data[truncate (percentileIndex data p)]?
        let b ← data[ceilNat (percentileIndex data p)]?
        let weight := percentileIndex data p - (truncate (percentileIndex data p)).toFloat
        return a * (1 - weight) + b * weight := by
  rcases data with _ | ⟨v, _ | ⟨w, rest⟩⟩
  · simp at h
  · simp at h
  · rfl

/-- **A percentile** is the blend of the two neighbours of its index. -/
theorem hasValue_percentile (hr : HasValue (percentileIndex data p) r) (h0 : 0 ≤ r)
    (h64 : r < 2 ^ 64) (ha : data[⌊r⌋₊]? = some a) (hb : data[⌈r⌉₊]? = some b) (hA : HasValue a A)
    (hB : HasValue b B) :
    ∃ v, percentile? data p = some v ∧ HasValue v (blend A B (Int.fract r)) ∧
      (⌊r⌋₊ = ⌈r⌉₊ → v = a) := by
  have hwhole (h : ⌊r⌋₊ = ⌈r⌉₊) : HasValue a (blend A B (Int.fract r)) := by
    have hr : r = ⌊r⌋₊ := le_antisymm (h ▸ Nat.le_ceil r) (Nat.floor_le h0)
    rw [hr, Int.fract_natCast, blend_zero hA.onGrid]
    exact hA
  obtain hone | htwo : data.length ≤ 1 ∨ 2 ≤ data.length := by omega
  · have hceil := (List.getElem?_eq_some_iff.1 hb).1
    have hsame : ⌊r⌋₊ = ⌈r⌉₊ := by
      have := Nat.floor_le_ceil r
      omega
    obtain ⟨v, rfl⟩ := List.length_eq_one_iff.1 (show data.length = 1 by omega)
    have hfloor : ⌊r⌋₊ = 0 := by
      rw [List.length_singleton] at hceil
      omega
    rw [hfloor] at ha
    obtain rfl := Option.some.inj ha
    exact ⟨v, rfl, hwhole hsame, fun _ => rfl⟩
  · rw [percentile?_of_two_le htwo, truncate_eq hr h0 h64, ceilNat_eq hr h0 h64]
    split_ifs with hsame
    · exact ⟨a, ha, hwhole hsame, fun _ => rfl⟩
    · have hweight := hr.fract h0 h64
      rw [truncate_eq hr h0 h64] at hweight
      rw [ha, hb]
      exact ⟨_, rfl, hA.blend hB hweight (Int.fract_nonneg r) (Int.fract_lt_one r).le,
        fun h => absurd h hsame⟩

/-! ### The order -/

theorem exists_neighbours (hne : data ≠ []) (hr : r ≤ (data.length - 1 : ℕ)) :
    ∃ a b, data[⌊r⌋₊]? = some a ∧ data[⌈r⌉₊]? = some b := by
  have hlength := List.length_pos_iff.2 hne
  have hceil : ⌈r⌉₊ ≤ data.length - 1 := Nat.ceil_le.2 hr
  have hfloor := Nat.floor_le_ceil r
  exact ⟨_, _, List.getElem?_eq_getElem (by omega), List.getElem?_eq_getElem (by omega)⟩

theorem toReal_le_of_index_le (hascending : data.Pairwise (· ≤ ·))
    (hfin : ∀ v ∈ data, v.isFinite = true) {i j : ℕ} (hij : i ≤ j) (ha : data[i]? = some a)
    (hb : data[j]? = some b) : toReal a ≤ toReal b := by
  obtain rfl | hlt := hij.eq_or_lt
  · rw [Option.some.inj (ha.symm.trans hb)]
  · obtain ⟨hi, rfl⟩ := List.getElem?_eq_some_iff.1 ha
    obtain ⟨hj, rfl⟩ := List.getElem?_eq_some_iff.1 hb
    have hle := List.pairwise_iff_getElem.1 hascending i j hi hj hlt
    rwa [(hasValue_toReal (hfin _ (List.getElem_mem hi))).le_iff
      (hasValue_toReal (hfin _ (List.getElem_mem hj)))] at hle

/-- Either an index lies between the same neighbours or beyond the upper one. -/
theorem ceil_le_floor_or {r s : ℝ} (h : r ≤ s) :
    ⌈r⌉₊ ≤ ⌊s⌋₊ ∨ ⌊r⌋₊ = ⌊s⌋₊ ∧ ⌈r⌉₊ = ⌈s⌉₊ := by
  have hfloor := Nat.floor_mono h
  have hceil := Nat.ceil_mono h
  have hr := Nat.ceil_le_floor_add_one r
  have hs := Nat.ceil_le_floor_add_one s
  omega

/-- A greater index lowers the blend of its neighbours by at most three units. -/
theorem blend_le_of_index_le (hascending : data.Pairwise (· ≤ ·))
    (hfin : ∀ v ∈ data, v.isFinite = true) {s : ℝ} {a' b' : Float} (h0 : 0 ≤ r) (hrs : r ≤ s)
    (ha : data[⌊r⌋₊]? = some a) (hb : data[⌈r⌉₊]? = some b)
    (ha' : data[⌊s⌋₊]? = some a') (hb' : data[⌈s⌉₊]? = some b') :
    blend (toReal a) (toReal b) (Int.fract r) ≤
      blend (toReal a') (toReal b') (Int.fract s) +
        3 * lastPlace (max |toReal a| |toReal b|) := by
  have hgrid {i : ℕ} {x : Float} (hx : data[i]? = some x) : OnGrid (toReal x) :=
    (hasValue_toReal (hfin x (List.mem_of_getElem? hx))).onGrid
  have hle {i j : ℕ} {x y : Float} := @toReal_le_of_index_le data x y hascending hfin i j
  have hab := hle (Nat.floor_le_ceil r) ha hb
  have hr0 := Int.fract_nonneg r
  have hr1 := (Int.fract_lt_one r).le
  have hs0 := Int.fract_nonneg s
  have hs1 := (Int.fract_lt_one s).le
  set M := max |toReal a| |toReal b| with hM
  obtain hbeyond | ⟨hfloor, hceil⟩ := ceil_le_floor_or hrs
  · -- both are within a unit of the upper neighbour
    have hupper := blend_le_add_lastPlace (hgrid hb) hab le_rfl hr0 hr1
    have hlower := sub_lastPlace_le_blend (hgrid hb) (hle hbeyond hb ha')
      (hle (hbeyond.trans (Nat.floor_le_ceil s)) hb hb') hs0 hs1
    have hunit : lastPlace (toReal b) ≤ lastPlace M :=
      lastPlace_mono ((le_max_right _ _).trans (le_abs_self M))
    linarith [lastPlace_pos M]
  · rw [hfloor] at ha
    rw [hceil] at hb
    obtain rfl := Option.some.inj (ha.symm.trans ha')
    obtain rfl := Option.some.inj (hb.symm.trans hb')
    have hweight : Int.fract r ≤ Int.fract s := by
      have hsame : (⌊r⌋₊ : ℝ) = ⌊s⌋₊ := by exact_mod_cast hfloor
      rw [natCast_floor_eq_intCast_floor h0, natCast_floor_eq_intCast_floor (h0.trans hrs)] at hsame
      rw [Int.fract, Int.fract, hsame]
      linarith
    exact blend_le_blend_add ((hgrid ha).abs.max (hgrid hb).abs) (le_max_left _ _)
      (le_max_right _ _) hab hr0 hweight hs1

/-- How a percentile `v` of ascending data lies to the neighbours `a` and `b` of its index. -/
structure IsInterpolated (data : List Float) (a b v : Float) : Prop where
  finite : v.isFinite = true
  lower : toReal a - lastPlace (toReal a) ≤ toReal v
  upper : toReal v ≤ toReal b + lastPlace (toReal b)
  first : ∀ x ∈ data.head?, toReal x - lastPlace (toReal x) ≤ toReal v
  last : ∀ x ∈ data.getLast?, toReal v ≤ toReal x + lastPlace (toReal x)
  /-- Of data that are all the same the percentiles are the same up to one unit. -/
  constant : ∀ x, (∀ y ∈ data, y = x) → |toReal v - toReal x| ≤ lastPlace (toReal x)
  /-- Between neighbours of both signs nothing is lost. -/
  signs : a ≤ 0 → 0 ≤ b → a ≤ v ∧ v ≤ b

theorem isInterpolated_of_hasValue {v : Float} (hascending : data.Pairwise (· ≤ ·))
    (hfin : ∀ v ∈ data, v.isFinite = true) (ha : data[⌊r⌋₊]? = some a) (hb : data[⌈r⌉₊]? = some b)
    (hv : HasValue v (blend (toReal a) (toReal b) (Int.fract r))) : IsInterpolated data a b v := by
  have hvalue {i : ℕ} {x : Float} (hx : data[i]? = some x) : HasValue x (toReal x) :=
    hasValue_toReal (hfin x (List.mem_of_getElem? hx))
  have hle {i j : ℕ} {x y : Float} := @toReal_le_of_index_le data x y hascending hfin i j
  have hab := hle (Nat.floor_le_ceil r) ha hb
  have h0 := Int.fract_nonneg r
  have h1 := (Int.fract_lt_one r).le
  have hlower {x : Float} (hx : HasValue x (toReal x)) (hxa : toReal x ≤ toReal a) :
      toReal x - lastPlace (toReal x) ≤ toReal v := by
    rw [hv.toReal_eq]
    exact sub_lastPlace_le_blend hx.onGrid hxa (hxa.trans hab) h0 h1
  have hupper {x : Float} (hx : HasValue x (toReal x)) (hbx : toReal b ≤ toReal x) :
      toReal v ≤ toReal x + lastPlace (toReal x) := by
    rw [hv.toReal_eq]
    exact blend_le_add_lastPlace hx.onGrid (hab.trans hbx) hbx h0 h1
  refine ⟨hv.isFinite, hlower (hvalue ha) le_rfl, hupper (hvalue hb) le_rfl, fun x hx => ?_,
    fun x hx => ?_, fun x hx => ?_, fun hneg hpos => ?_⟩
  · rw [List.head?_eq_getElem?] at hx
    exact hlower (hvalue hx) (hle (Nat.zero_le _) hx ha)
  · rw [List.getLast?_eq_getElem?] at hx
    have hceil := (List.getElem?_eq_some_iff.1 hb).1
    exact hupper (hvalue hx) (hle (by omega) hb hx)
  · obtain rfl := hx a (List.mem_of_getElem? ha)
    obtain rfl := hx b (List.mem_of_getElem? hb)
    rw [abs_le]
    constructor <;> linarith [hlower (hvalue ha) le_rfl, hupper (hvalue hb) le_rfl]
  · rw [(hvalue ha).le_iff hasValue_zero] at hneg
    rw [hasValue_zero.le_iff (hvalue hb)] at hpos
    rw [(hvalue ha).le_iff hv, hv.le_iff (hvalue hb)]
    exact blend_of_signs (hvalue ha).onGrid (hvalue hb).onGrid hneg hpos h0 h1

/-- Each rank has an index with two neighbours, and a percentile, which is their blend. -/
theorem exists_percentile_blend (hne : data ≠ []) (hsize : data.length < 2 ^ 53 + 4)
    (hfin : ∀ v ∈ data, v.isFinite = true) (h0 : 0 ≤ p) (h1 : p ≤ 100) :
    ∃ r v a b, r = indexOf (data.length - 1) (toReal p) ∧ 0 ≤ r ∧
      truncate (percentileIndex data p) = ⌊r⌋₊ ∧ ceilNat (percentileIndex data p) = ⌈r⌉₊ ∧
      data[⌊r⌋₊]? = some a ∧ data[⌈r⌉₊]? = some b ∧ percentile? data p = some v ∧
      HasValue v (blend (toReal a) (toReal b) (Int.fract r)) ∧ (⌊r⌋₊ = ⌈r⌉₊ → v = a) := by
  have hd : data.length - 1 ≤ 2 ^ 53 + 2 := by omega
  have hp : HasValue p (toReal p) :=
    hasValue_toReal (isFinite_of_between hasValue_zero.isFinite hasValue_hundred.isFinite h0 h1)
  rw [hasValue_zero.le_iff hp] at h0
  rw [hp.le_iff hasValue_hundred] at h1
  have hindex := hasValue_percentileIndex hp h0 h1 hd
  have hnonneg := indexOf_nonneg (d := data.length - 1) h0
  have hle := indexOf_le hd h1
  have h64 : indexOf (data.length - 1) (toReal p) < 2 ^ 64 :=
    hle.trans_lt (by exact_mod_cast hd.trans_lt (by norm_num))
  obtain ⟨a, b, ha, hb⟩ := exists_neighbours hne hle
  obtain ⟨v, hv, hvalue, hwhole⟩ := hasValue_percentile hindex hnonneg h64 ha hb
    (hasValue_toReal (hfin a (List.mem_of_getElem? ha)))
    (hasValue_toReal (hfin b (List.mem_of_getElem? hb)))
  exact ⟨_, v, a, b, rfl, hnonneg, truncate_eq hindex hnonneg h64, ceilNat_eq hindex hnonneg h64,
    ha, hb, hv, hvalue, hwhole⟩

/-- **The percentiles of ascending data.** Each rank has a percentile. It is at most one unit in the
last place outside the neighbours of its index, and the one itself if there is only one. A higher
rank lowers it by at most three such units. -/
theorem exists_percentile (hne : data ≠ []) (hsize : data.length < 2 ^ 53 + 4)
    (hascending : data.Pairwise (· ≤ ·)) (hfin : ∀ v ∈ data, v.isFinite = true) (h0 : 0 ≤ p)
    (h1 : p ≤ 100) :
    ∃ v a b, percentile? data p = some v ∧
      data[truncate (percentileIndex data p)]? = some a ∧
      data[ceilNat (percentileIndex data p)]? = some b ∧ IsInterpolated data a b v ∧
      (truncate (percentileIndex data p) = ceilNat (percentileIndex data p) → v = a) ∧
      ∀ q, p ≤ q → q ≤ 100 → ∃ v', percentile? data q = some v' ∧
        toReal v ≤ toReal v' + 3 * lastPlace (max |toReal a| |toReal b|) := by
  obtain ⟨r, v, a, b, hr, hr0, hlower, hupper, ha, hb, hv, hvalue, hwhole⟩ :=
    exists_percentile_blend hne hsize hfin h0 h1
  rw [hlower, hupper]
  refine ⟨v, a, b, hv, ha, hb, isInterpolated_of_hasValue hascending hfin ha hb hvalue, hwhole,
    fun q hpq hq => ?_⟩
  obtain ⟨s, v', a', b', hs, -, -, -, ha', hb', hv', hvalue', -⟩ :=
    exists_percentile_blend hne hsize hfin (Binary64.le_trans h0 hpq) hq
  have hpfin := isFinite_of_between hasValue_zero.isFinite hasValue_hundred.isFinite h0 h1
  have hqfin := isFinite_of_between hpfin hasValue_hundred.isFinite hpq hq
  rw [(hasValue_toReal hpfin).le_iff (hasValue_toReal hqfin)] at hpq
  have hrs : r ≤ s := by
    rw [hr, hs]
    exact indexOf_mono hpq
  refine ⟨v', hv', ?_⟩
  rw [hvalue.toReal_eq, hvalue'.toReal_eq]
  exact blend_le_of_index_le hascending hfin hr0 hrs ha hb ha' hb'

/-- Data that are all the same, and a rank with a percentile above them. -/
theorem exists_percentile_of_threes :
    ([3, 3] : List Float) ≠ [] ∧ ([3, 3] : List Float).length < 2 ^ 53 + 4 ∧
      ([3, 3] : List Float).Pairwise (· ≤ ·) ∧ (∀ v ∈ ([3, 3] : List Float), v.isFinite = true) ∧
      (0 : Float) ≤ 20 ∧ (20 : Float) ≤ 100 ∧ percentile? [3, 3] 20 = some 3.0000000000000004 ∧
      IsInterpolated [3, 3] 3 3 3.0000000000000004 ∧ (20 : Float) ≤ 30 ∧ (30 : Float) ≤ 100 ∧
      percentile? [3, 3] 30 = some 2.9999999999999996 ∧
      toReal 3.0000000000000004 ≤
        toReal 2.9999999999999996 + 3 * lastPlace (max |toReal 3| |toReal 3|) := by
  have hne : ([3, 3] : List Float) ≠ [] := List.cons_ne_nil _ _
  have hsize : ([3, 3] : List Float).length < 2 ^ 53 + 4 := by decide
  have hascending : ([3, 3] : List Float).Pairwise (· ≤ ·) := by decide +kernel
  have hfin : ∀ v ∈ ([3, 3] : List Float), v.isFinite = true := by decide +kernel
  have h0 : (0 : Float) ≤ 20 := by decide +kernel
  have h1 : (20 : Float) ≤ 100 := by decide +kernel
  have hpq : (20 : Float) ≤ 30 := by decide +kernel
  have hq : (30 : Float) ≤ 100 := by decide +kernel
  have hindex : truncate (percentileIndex [3, 3] 20) = 0 ∧
      ceilNat (percentileIndex [3, 3] 20) = 1 := by decide +kernel
  have hlow : percentile? [3, 3] 20 = some 3.0000000000000004 := by decide +kernel
  have hhigh : percentile? [3, 3] 30 = some 2.9999999999999996 := by decide +kernel
  obtain ⟨v, a, b, hv, ha, hb, hnear, -, hmono⟩ :=
    exists_percentile hne hsize hascending hfin h0 h1
  rw [hindex.1] at ha
  rw [hindex.2] at hb
  obtain rfl := Option.some.inj (hlow.symm.trans hv)
  obtain rfl := Option.some.inj ha
  obtain rfl := Option.some.inj hb
  obtain ⟨v', hv', hle⟩ := hmono 30 hpq hq
  obtain rfl := Option.some.inj (hhigh.symm.trans hv')
  exact ⟨hne, hsize, hascending, hfin, h0, h1, hlow, hnear, hpq, hq, hhigh, hle⟩

theorem percentile_of_too_many : percentile? (List.replicate (2 ^ 53 + 4) 0) 100 = none := by
  have hindex : percentileIndex (List.replicate (2 ^ 53 + 4) 0) 100 = (2 ^ 53 + 4 : ℕ).toFloat := by
    rw [percentileIndex, List.length_replicate]
    decide +kernel
  have htruncate : truncate (2 ^ 53 + 4 : ℕ).toFloat = 2 ^ 53 + 4 := by decide +kernel
  have hceil : ceilNat (2 ^ 53 + 4 : ℕ).toFloat = 2 ^ 53 + 4 := by decide +kernel
  rw [percentile?_of_two_le (by rw [List.length_replicate]; norm_num), hindex, htruncate, hceil,
    if_pos rfl, List.getElem?_eq_none (by rw [List.length_replicate])]

/-- **Percentiles outside the data.** Data that are all the same have percentiles above and below
them, and the higher rank has the lower one. Three units is how far a higher rank can lower it, and
from `2^53 + 4` values on the greatest index is rounded up beyond the data. -/
theorem percentile_outside :
    ([3, 3] : List Float).Pairwise (· ≤ ·) ∧ (0 : Float) ≤ 20 ∧ (20 : Float) ≤ 30 ∧
      (30 : Float) ≤ 100 ∧ percentile? [3, 3] 20 = some 3.0000000000000004 ∧
      (3 : Float) < 3.0000000000000004 ∧ percentile? [3, 3] 30 = some 2.9999999999999996 ∧
      (2.9999999999999996 : Float) < 3 ∧
      percentile? [8580553346223002, 8580553346223016] 26.2398 = some 8580553346223007 ∧
      percentile? [8580553346223002, 8580553346223016] 26.306 = some 8580553346223004 ∧
      percentile? (List.replicate (2 ^ 53 + 4) 0) 100 = none := by
  refine ⟨?_, ?_, ?_, ?_, ?_, ?_, ?_, ?_, ?_, ?_, percentile_of_too_many⟩ <;> decide +kernel

end

end Campaign
