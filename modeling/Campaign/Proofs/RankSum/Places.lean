import Campaign.Proofs.RankSum.Midranks

/-!
# Ties by places

The place of a value is the number of pooled values below it. Values are equal exactly if they have
one place, so the groups of equal values are the runs in the sorted list of places. That list does
not depend on the values themselves, nor on where they stand.

* `places`: the place of each value;
* `runLengths`: the lengths of the runs of a list of places.

## Main statements

* `lower_eq_iff`: one place, one value.
* `tieGroups_of`: the tie groups of a pooled sample are read off its places.
* `allEqual_iff_places`: all values are equal exactly if all places are zero.
-/

namespace Campaign.RankSum

open Binary64

/-- The places of the values: how many values are below each of them. -/
def places (l : List Float) : Multiset ℕ := l.map (lower l)

/-- The lengths of the runs of equal places. -/
def runLengths : List ℕ → List ℕ
  | [] => []
  | k :: l => (k :: l.takeWhile (· = k)).length :: runLengths (l.dropWhile (· = k))
termination_by l => l.length
decreasing_by
  have := (List.dropWhile_sublist (fun m : ℕ => decide (m = k)) (l := l)).length_le
  simp only [List.length_cons]; omega

/-! ### Places and values -/

section

variable {l : List Float} {v w : Float}

theorem lower_congr (hl : AllFinite l) (hv : v.isFinite = true) (hw : w.isFinite = true)
    (h : toReal v = toReal w) : lower l v = lower l w := by
  refine List.countP_congr fun u hu => ?_
  simp only [decide_eq_true_eq, lt_iff_toReal (hl u hu) hv, lt_iff_toReal (hl u hu) hw, h]

/-- The values below `v` and those equal to it are below every greater value. -/
theorem lower_add_equal_le (hl : AllFinite l) (hv : v.isFinite = true) (hw : w.isFinite = true)
    (h : toReal v < toReal w) : lower l v + equal l v ≤ lower l w := by
  induction l with
  | nil => exact Nat.zero_le _
  | cons u l ih =>
    have hu := hl u List.mem_cons_self
    have ih := ih fun t ht => hl t (List.mem_cons_of_mem u ht)
    simp only [lower, equal, List.countP_cons, decide_eq_true_eq, lt_iff_toReal hu hv,
      lt_iff_toReal hu hw, beq_iff_toReal hu hv] at *
    rcases lt_trichotomy (toReal u) (toReal v) with huv | huv | huv
    · rw [if_pos huv, if_neg huv.ne, if_pos (huv.trans h)]; omega
    · rw [if_neg huv.not_lt, if_pos huv, if_pos (huv ▸ h)]; omega
    · rw [if_neg huv.not_gt, if_neg huv.ne']
      split_ifs <;> omega

theorem lower_mono (hl : AllFinite l) (hv : v.isFinite = true) (hw : w.isFinite = true)
    (h : toReal v ≤ toReal w) : lower l v ≤ lower l w := by
  rcases h.eq_or_lt with h | h
  · exact (lower_congr hl hv hw h).le
  · have := lower_add_equal_le hl hv hw h
    omega

theorem lower_lt_lower (hl : AllFinite l) (hv : v ∈ l) (hw : w.isFinite = true)
    (h : toReal v < toReal w) : lower l v < lower l w := by
  have := lower_add_equal_le hl (hl v hv) hw h
  have := one_le_equal hl.numbers hv
  omega

/-- **One place, one value.** -/
theorem lower_eq_iff (hl : AllFinite l) (hv : v ∈ l) (hw : w ∈ l) :
    lower l v = lower l w ↔ (v == w) = true := by
  rw [beq_iff_toReal (hl v hv) (hl w hw)]
  constructor
  · intro h
    rcases lt_trichotomy (toReal v) (toReal w) with hlt | heq | hlt
    · exact absurd h (lower_lt_lower hl hv (hl w hw) hlt).ne
    · exact heq
    · exact absurd h (lower_lt_lower hl hw (hl v hv) hlt).ne'
  · exact lower_congr hl (hl v hv) (hl w hw)

theorem allEqual_iff_places (hl : AllFinite l) : AllEqual l ↔ ∀ k ∈ places l, k = 0 := by
  simp only [places, Multiset.mem_coe, List.forall_mem_map]
  constructor
  · intro h v hv
    refine List.countP_eq_zero.2 fun w hw => ?_
    have heq := (beq_iff_toReal (hl w hw) (hl v hv)).1 (h w hw v hv)
    rw [decide_eq_true_eq, lt_iff_toReal (hl w hw) (hl v hv), heq]
    exact lt_irrefl _
  · intro h v hv w hw
    exact (lower_eq_iff hl hv hw).1 ((h v hv).trans (h w hw).symm)

end

theorem places_perm {l l' : List Float} (h : l.Perm l') : places l = places l' := by
  have hlower : lower l = lower l' := funext fun v => h.countP_eq _
  rw [places, places, hlower]
  exact Multiset.coe_eq_coe.2 (h.map _)

/-! ### Runs of places -/

theorem takeWhile_congr {α : Type} {l : List α} {p q : α → Bool} (h : ∀ a ∈ l, p a = q a) :
    l.takeWhile p = l.takeWhile q := by
  induction l with
  | nil => rfl
  | cons a l ih =>
    rw [List.takeWhile_cons, List.takeWhile_cons, h a List.mem_cons_self,
      ih fun b hb => h b (List.mem_cons_of_mem a hb)]

theorem dropWhile_congr {α : Type} {l : List α} {p q : α → Bool} (h : ∀ a ∈ l, p a = q a) :
    l.dropWhile p = l.dropWhile q := by
  induction l with
  | nil => rfl
  | cons a l ih =>
    rw [List.dropWhile_cons, List.dropWhile_cons, h a List.mem_cons_self,
      ih fun b hb => h b (List.mem_cons_of_mem a hb)]

/-- Runs of equal values are runs of equal numbers, if the numbers tell the values apart. -/
theorem map_length_tieRuns {l : List Placed} {f : Placed → ℕ}
    (hf : ∀ a ∈ l, ∀ b ∈ l, f a = f b ↔ (a.1 == b.1) = true) :
    (tieRuns l).map List.length = runLengths (l.map f) := by
  fun_induction tieRuns l with
  | case1 => simp [runLengths]
  | case2 a l ih =>
    have hrun : ∀ b ∈ l, (b.1 == a.1) = (decide (f b = f a)) := fun b hb => by
      rw [Bool.eq_iff_iff, decide_eq_true_iff,
        hf b (List.mem_cons_of_mem a hb) a List.mem_cons_self]
    have hsub : l.dropWhile (·.1 == a.1) ⊆ a :: l := fun b hb =>
      List.mem_cons_of_mem a ((List.dropWhile_sublist _).subset hb)
    rw [List.map_cons, ih fun b hb c hc => hf b (hsub hb) c (hsub hc), List.map_cons, runLengths,
      List.takeWhile_map, List.dropWhile_map, takeWhile_congr hrun, dropWhile_congr hrun]
    simp only [List.length_cons, List.length_map]
    rfl

namespace PooledRanks

/-- **The tie groups are read off the places.** -/
theorem tieGroups_of {x y : List Float} (hfin : AllFinite (x ++ y)) :
    (PooledRanks.of x y).tieGroups =
      (runLengths ((places (x ++ y)).sort (· ≤ ·))).filter (1 < ·) := by
  simp only [of]
  generalize x ++ y = l at hfin ⊢
  have hmem : ∀ a ∈ sortPlaced l, a.1 ∈ l := fun a ha =>
    (values_sortPlaced_perm l).subset (List.mem_map_of_mem ha)
  have hplaces : places l = (sortPlaced l).map fun a => lower l a.1 := by
    have h := (values_sortPlaced_perm l).map (lower l)
    rw [values, List.map_map] at h
    exact (Multiset.coe_eq_coe.2 h).symm
  have hsorted : ((sortPlaced l).map fun a => lower l a.1).Pairwise (· ≤ ·) := by
    rw [List.pairwise_map]
    refine (ascending_sortPlaced hfin.numbers).imp_of_mem fun {a b} ha hb hab => ?_
    have hva := hasValue_toReal (hfin _ (hmem a ha))
    have hvb := hasValue_toReal (hfin _ (hmem b hb))
    rw [hva.toEReal_eq, hvb.toEReal_eq, EReal.coe_le_coe_iff] at hab
    exact lower_mono hfin hva.isFinite hvb.isFinite hab
  rw [hplaces, Multiset.coe_sort, List.mergeSort_eq_self (· ≤ ·) hsorted,
    ← map_length_tieRuns fun a ha b hb => lower_eq_iff hfin (hmem a ha) (hmem b hb)]

/-- The places alone decide on the tie groups. -/
theorem tieGroups_congr {x y x' y' : List Float} (hfin : AllFinite (x ++ y))
    (hfin' : AllFinite (x' ++ y')) (h : places (x ++ y) = places (x' ++ y')) :
    (PooledRanks.of x y).tieGroups = (PooledRanks.of x' y').tieGroups := by
  rw [tieGroups_of hfin, tieGroups_of hfin', h]

end PooledRanks

end Campaign.RankSum
