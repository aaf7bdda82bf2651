import Campaign.Proofs.RankSum.Statistic

/-!
# Classes of equal values

The runs of the sorted sample are the classes of equal values of the pooled one, so the tie groups
list the sizes of the classes of at least two values. Infinities are values like all others, and
`-0.0` is in the class of `0.0`.

* `Represents reps l`: one value of each class, by increasing value.

## Main statements

* `exists_represents`: the lengths of the runs of a sorted list are the sizes of its classes.
* `allDistinct_iff`: no two values are equal exactly if every class has one value.
* `PooledRanks.of_classes`: ranks, tie groups and the two questions asked about them.
-/

namespace Campaign.RankSum

open Binary64

/-- One value of each class of equal values of `l`, by increasing value. -/
structure Represents (reps l : List Float) : Prop where
  increasing : reps.Pairwise (· < ·)
  mem : ∀ w ∈ reps, w ∈ l
  complete : ∀ v ∈ l, ∃ w ∈ reps, (v == w) = true

theorem Represents.perm {reps l l' : List Float} (h : Represents reps l) (hperm : l.Perm l') :
    Represents reps l' where
  increasing := h.increasing
  mem w hw := hperm.subset (h.mem w hw)
  complete v hv := h.complete v (hperm.symm.subset hv)

/-! ### The runs are the classes -/

theorem FirstRun.represents {r : EReal} {run rest : List Placed} (h : FirstRun r run rest)
    {a : Placed} (ha : a ∈ run) {reps : List Float} (hreps : Represents reps (values rest)) :
    Represents (a.1 :: reps) (values (run ++ rest)) where
  increasing := by
    refine List.pairwise_cons.2 ⟨fun w hw => ?_, hreps.increasing⟩
    obtain ⟨b, hb, rfl⟩ := List.mem_map.1 (hreps.mem w hw)
    rw [lt_iff_toEReal (h.isNaN_run ha) (h.isNaN_rest hb), h.run_eq a ha]
    exact h.lt_rest b hb
  mem := by
    intro w hw
    rw [values, List.map_append]
    rcases List.mem_cons.1 hw with rfl | hw
    · exact List.mem_append_left _ (List.mem_map_of_mem ha)
    · exact List.mem_append_right _ (hreps.mem w hw)
  complete := by
    intro v hv
    rw [values, List.map_append, List.mem_append] at hv
    rcases hv with hv | hv
    · obtain ⟨b, hb, rfl⟩ := List.mem_map.1 hv
      refine ⟨a.1, List.mem_cons_self, ?_⟩
      rw [beq_iff_toEReal (h.isNaN_run hb) (h.isNaN_run ha), h.run_eq a ha, h.run_eq b hb]
    · obtain ⟨w, hw, heq⟩ := hreps.complete v hv
      exact ⟨w, List.mem_cons_of_mem _ hw, heq⟩

/-- **The runs of a sorted list are its classes.** -/
theorem exists_represents {l : List Placed} (hl : AllNumbers (values l)) (hs : Ascending l) :
    ∃ reps, Represents reps (values l) ∧
      (tieRuns l).map List.length = reps.map (equal (values l)) := by
  refine runsInduction (motive := fun l => ∃ reps, Represents reps (values l) ∧
    (tieRuns l).map List.length = reps.map (equal (values l))) ?nil ?append hl hs
  case nil =>
    refine ⟨[], ⟨.nil, fun w hw => hw, fun v hv => absurd hv List.not_mem_nil⟩, ?_⟩
    rw [tieRuns, List.map_nil, List.map_nil]
  case append =>
    rintro r run rest h ⟨reps, hreps, hsizes⟩
    obtain ⟨a, ha⟩ := List.exists_mem_of_ne_nil run h.nonempty
    have hrest : ∀ w ∈ reps, equal (values rest) w = equal (values (run ++ rest)) w := by
      intro w hw
      obtain ⟨b, hb, rfl⟩ := List.mem_map.1 (hreps.mem w hw)
      exact (h.equal_rest hb).symm
    refine ⟨a.1 :: reps, h.represents ha hreps, ?_⟩
    rw [h.tieRuns_append, List.map_cons, List.map_cons, hsizes, h.equal_run ha,
      List.map_congr_left hrest]

/-! ### Classes of one value -/

section

variable {l : List Float} {v w : Float}

theorem equal_congr (hl : AllNumbers l) (hv : v.isNaN = false) (hw : w.isNaN = false)
    (h : (v == w) = true) : equal l v = equal l w := by
  refine List.countP_congr fun u hu => ?_
  rw [beq_iff_toEReal (hl u hu) hv, beq_iff_toEReal (hl u hu) hw, (beq_iff_toEReal hv hw).1 h]

/-- **No two values are equal exactly if every class has one value.** -/
theorem allDistinct_iff (hl : AllNumbers l) : AllDistinct l ↔ ∀ v ∈ l, equal l v ≤ 1 := by
  induction l with
  | nil => simp [AllDistinct]
  | cons a l ih =>
    have hself : (a == a) = true := by
      rw [beq_iff_toEReal (hl a List.mem_cons_self) (hl a List.mem_cons_self)]
    have ih := ih fun v hv => hl v (List.mem_cons_of_mem a hv)
    rw [AllDistinct, List.pairwise_cons, ← AllDistinct, ih, List.forall_mem_cons]
    simp only [equal, List.countP_cons, hself, if_true]
    constructor
    · rintro ⟨hne, hle⟩
      have hzero : l.countP (· == a) = 0 := List.countP_eq_zero.2 fun w hw h => by
        rw [BEq.comm, hne w hw] at h
        exact absurd h (by decide)
      refine ⟨by rw [hzero], fun v hv => ?_⟩
      rw [if_neg (by rw [hne v hv]; decide)]
      exact hle v hv
    · rintro ⟨hle, hrest⟩
      refine ⟨fun w hw => ?_, fun v hv => le_trans (Nat.le_add_right _ _) (hrest v hv)⟩
      have hzero : l.countP (· == a) = 0 := by omega
      rw [BEq.comm]
      exact Bool.eq_false_iff.2 (List.countP_eq_zero.1 hzero w hw)

end

namespace PooledRanks

variable {x y : List Float}

/-- **The tie groups are the classes of at least two values.** -/
theorem exists_represents_tieGroups (hnumbers : AllNumbers (x ++ y)) :
    ∃ reps, Represents reps (x ++ y) ∧
      (PooledRanks.of x y).tieGroups = (reps.map (equal (x ++ y))).filter (2 ≤ ·) := by
  obtain ⟨reps, hreps, hsizes⟩ := exists_represents (allNumbers_sortPlaced hnumbers)
    (ascending_sortPlaced hnumbers)
  have hperm := values_sortPlaced_perm (x ++ y)
  refine ⟨reps, hreps.perm hperm, ?_⟩
  have hequal : equal (values (sortPlaced (x ++ y))) = equal (x ++ y) :=
    funext fun v => hperm.countP_eq _
  rw [← hequal, ← hsizes]
  rfl

/-- **There is a tie exactly if two values are equal.** -/
theorem hasTies_iff (hnumbers : AllNumbers (x ++ y)) :
    (PooledRanks.of x y).hasTies = true ↔ ¬ AllDistinct (x ++ y) := by
  obtain ⟨reps, hreps, htie⟩ := exists_represents_tieGroups hnumbers
  have hsome : (PooledRanks.of x y).hasTies = true ↔ ∃ w ∈ reps, 2 ≤ equal (x ++ y) w := by
    simp [hasTies, htie, Nat.succ_le_iff]
  rw [hsome, allDistinct_iff hnumbers]
  push Not
  constructor
  · rintro ⟨w, hw, htwo⟩
    exact ⟨w, hreps.mem w hw, htwo⟩
  · rintro ⟨v, hv, htwo⟩
    obtain ⟨w, hw, heq⟩ := hreps.complete v hv
    refine ⟨w, hw, ?_⟩
    rwa [← equal_congr hnumbers (hnumbers v hv) (hnumbers w (hreps.mem w hw)) heq]

theorem not_allDistinct_iff {l : List Float} :
    ¬ AllDistinct l ↔ ∃ (i j : ℕ) (v w : Float),
      i < j ∧ l[i]? = some v ∧ l[j]? = some w ∧ (v == w) = true := by
  rw [AllDistinct, List.pairwise_iff_getElem]
  push Not
  constructor
  · rintro ⟨i, j, hi, hj, hij, heq⟩
    exact ⟨i, j, l[i], l[j], hij, List.getElem?_eq_getElem hi, List.getElem?_eq_getElem hj,
      Bool.eq_true_of_not_eq_false heq⟩
  · rintro ⟨i, j, v, w, hij, hv, hw, heq⟩
    obtain ⟨hi, rfl⟩ := List.getElem?_eq_some_iff.1 hv
    obtain ⟨hj, rfl⟩ := List.getElem?_eq_some_iff.1 hw
    exact ⟨i, j, hi, hj, hij, by rw [heq]; decide⟩

theorem allEqual_iff_getElem? {l : List Float} :
    AllEqual l ↔ ∀ (i j : ℕ) (v w : Float),
      l[i]? = some v → l[j]? = some w → (v == w) = true := by
  simp only [AllEqual, List.mem_iff_getElem?]
  constructor
  · intro h i j v w hv hw
    exact h v ⟨i, hv⟩ w ⟨j, hw⟩
  · rintro h v ⟨i, hv⟩ w ⟨j, hw⟩
    exact h i j v w hv hw

/-- **A rank is exact.** All values lower than the given one come first, and its class shares the
mean of the ranks that follow. -/
theorem hasValue_rank (hnumbers : AllNumbers (x ++ y)) (hN : (x ++ y).length < 2 ^ 52)
    {v : Float} (hv : v ∈ x ++ y) :
    HasValue (midrank (lower (x ++ y) v) (equal (x ++ y) v))
      (lower (x ++ y) v + (equal (x ++ y) v + 1) / 2) := by
  have hone := one_le_equal hnumbers hv
  have hlength := lower_add_equal_add hnumbers (hnumbers v hv)
  have h : HasValue (midrank (lower (x ++ y) v) (equal (x ++ y) v)) _ :=
    hasValue_midrank hone (by omega)
  have hcast : ((2 * lower (x ++ y) v + equal (x ++ y) v + 1 : ℕ) : ℝ) / 2 =
      lower (x ++ y) v + (equal (x ++ y) v + 1) / 2 := by
    push_cast
    ring
  rwa [hcast] at h

/-- **Ranks and tie groups are those of the classes of equal values.** Every position has the
number of lower values and half of one more than its class as its rank; the tie groups are the
sizes of the classes of two or more values, by increasing value. -/
theorem of_classes (hnumbers : AllNumbers (x ++ y)) (hN : (x ++ y).length < 2 ^ 52) :
    (PooledRanks.of x y).ranks.length = (x ++ y).length ∧
    (∀ (i : ℕ) (v : Float), (x ++ y)[i]? = some v → ∃ r, (PooledRanks.of x y).ranks[i]? = some r ∧
      HasValue r (lower (x ++ y) v + (equal (x ++ y) v + 1) / 2)) ∧
    (∃ reps, Represents reps (x ++ y) ∧
      (PooledRanks.of x y).tieGroups = (reps.map (equal (x ++ y))).filter (2 ≤ ·)) ∧
    ((PooledRanks.of x y).hasTies = true ↔
      ∃ (i j : ℕ) (v w : Float),
        i < j ∧ (x ++ y)[i]? = some v ∧ (x ++ y)[j]? = some w ∧ (v == w) = true) ∧
    (2 ≤ (x ++ y).length → ((PooledRanks.of x y).allTied = true ↔
      ∀ (i j : ℕ) (v w : Float),
        (x ++ y)[i]? = some v → (x ++ y)[j]? = some w → (v == w) = true)) := by
  refine ⟨length_ranks hnumbers, fun i v hv => ?_, exists_represents_tieGroups hnumbers, ?_,
    fun hlength => ?_⟩
  · refine ⟨midrank (lower (x ++ y) v) (equal (x ++ y) v), ?_,
      hasValue_rank hnumbers hN (List.mem_of_getElem? hv)⟩
    rw [ranks_of hnumbers, List.getElem?_map, hv, Option.map_some]
  · rw [hasTies_iff hnumbers, not_allDistinct_iff]
  · rw [allTied_of_iff hnumbers hlength, allEqual_iff_getElem?]

/-- The signed zeros are one class, above the negative infinity. -/
theorem of_classes_of_signedZeros :
    AllNumbers ([0.0, 1 / 0] ++ [-0.0, -1 / 0]) ∧ ([0.0, 1 / 0] ++ [-0.0, -1 / 0]).length < 2 ^ 52 ∧
      (PooledRanks.of [0.0, 1 / 0] [-0.0, -1 / 0]).hasTies = true ∧
      (PooledRanks.of [0.0, 1 / 0] [-0.0, -1 / 0]).allTied = false ∧
      ∃ r, (PooledRanks.of [0.0, 1 / 0] [-0.0, -1 / 0]).ranks[2]? = some r ∧
        HasValue r (1 + (2 + 1) / 2) := by
  have hnumbers : AllNumbers ([0.0, 1 / 0] ++ [-0.0, -1 / 0]) := by decide +kernel
  have hN : ([0.0, 1 / 0] ++ [-0.0, -1 / 0] : List Float).length < 2 ^ 52 := by decide
  have hlower : lower ([0.0, 1 / 0] ++ [-0.0, -1 / 0]) (-0.0) = 1 := by decide +kernel
  have hequal : equal ([0.0, 1 / 0] ++ [-0.0, -1 / 0]) (-0.0) = 2 := by decide +kernel
  obtain ⟨-, hranks, -, hties, htied⟩ := of_classes hnumbers hN
  obtain ⟨r, hr, hvalue⟩ := hranks 2 (-0.0) rfl
  rw [hlower, hequal, Nat.cast_one, Nat.cast_ofNat] at hvalue
  have heq₀ : ((0.0 : Float) == -0.0) = true := by decide +kernel
  refine ⟨hnumbers, hN, hties.2 ⟨0, 2, 0.0, -0.0, by decide, rfl, rfl, heq₀⟩, ?_, r, hr, hvalue⟩
  refine Bool.eq_false_iff.2 fun h => ?_
  have heq := (htied (by decide)).1 h 0 1 0.0 (1 / 0) rfl rfl
  exact absurd heq (by decide +kernel)

end PooledRanks

end Campaign.RankSum
