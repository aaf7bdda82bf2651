import Campaign.Proofs.RankSum.Pairs
import Campaign.RankSum.Ranks
import Mathlib.Data.List.TakeWhile

/-!
# Midranks as counts

The runs of a sorted list are its classes of equal values, so the mean rank of a run is given by
two counts: how many values are lower, and how many are equal. Sorting back by position then puts
every rank where its value stands in the input.

* `Ascending`: a list sorted by the numbers of its values;
* `FirstRun`: a sorted list cut behind its first run.

## Main statements

* `runsInduction`: induction over the runs of a sorted list.
* `rankRuns_tieRuns`: the ranks that a sorted list gets from its runs.
* `ranks_of`: the ranks of a pooled sample in the order of the input.
* `lt_of_mem_tieGroups`, `allTied_of_iff`: what the tie groups say about all values.
-/

namespace Campaign.RankSum

open Binary64

/-- The values of a list with positions. -/
def values (l : List Placed) : List Float := l.map (·.1)

/-- Sorted by the numbers of the values. -/
def Ascending (l : List Placed) : Prop := l.Pairwise fun a b => toEReal a.1 ≤ toEReal b.1

/-! ### The runs of a sorted list -/

section

variable {a : Placed} {l : List Placed}

theorem beq_iff_of_mem (hl : AllNumbers (values (a :: l))) {b : Placed} (hb : b ∈ l) :
    (b.1 == a.1) = true ↔ toEReal b.1 = toEReal a.1 :=
  beq_iff_toEReal (hl b.1 (List.mem_map_of_mem (List.mem_cons_of_mem a hb)))
    (hl a.1 (List.mem_map_of_mem List.mem_cons_self))

theorem toEReal_of_mem_takeWhile (hl : AllNumbers (values (a :: l))) {b : Placed}
    (hb : b ∈ l.takeWhile (·.1 == a.1)) : toEReal b.1 = toEReal a.1 := by
  have hall : (l.takeWhile (·.1 == a.1)).all (·.1 == a.1) = true := List.all_takeWhile
  have hbeq := List.all_eq_true.1 hall b hb
  exact (beq_iff_of_mem hl ((List.takeWhile_sublist _).subset hb)).1 hbeq

theorem lt_of_mem_dropWhile (hl : AllNumbers (values (a :: l))) (hs : Ascending (a :: l))
    {b : Placed} (hb : b ∈ l.dropWhile (·.1 == a.1)) : toEReal a.1 < toEReal b.1 := by
  induction l with
  | nil => cases hb
  | cons c l ih =>
    obtain ⟨ha, hcl⟩ := List.pairwise_cons.1 hs
    have hac := ha c List.mem_cons_self
    by_cases heq : (c.1 == a.1) = true
    · rw [List.dropWhile_cons, if_pos heq] at hb
      refine ih ?_ ?_ hb
      · intro v hv
        rcases List.mem_cons.1 hv with rfl | hv
        · exact hl _ List.mem_cons_self
        · exact hl v (List.mem_cons_of_mem _ (List.mem_cons_of_mem _ hv))
      · exact List.Pairwise.sublist (.cons_cons a (List.sublist_cons_self c l)) hs
    · rw [List.dropWhile_cons, if_neg heq] at hb
      have hlt : toEReal a.1 < toEReal c.1 :=
        lt_of_le_of_ne hac fun h => heq ((beq_iff_of_mem hl List.mem_cons_self).2 h.symm)
      rcases List.mem_cons.1 hb with rfl | hb
      · exact hlt
      · exact hlt.trans_le ((List.pairwise_cons.1 hcl).1 b hb)

end

/-- A sorted list of numbers cut behind its first run, all of whose values have the number `r`. -/
structure FirstRun (r : EReal) (run rest : List Placed) : Prop where
  numbers : AllNumbers (values (run ++ rest))
  nonempty : run ≠ []
  run_eq : ∀ c ∈ run, toEReal c.1 = r
  lt_rest : ∀ c ∈ rest, r < toEReal c.1
  tieRuns_append : tieRuns (run ++ rest) = run :: tieRuns rest

/-- Induction over the runs of a sorted list. -/
theorem runsInduction {motive : List Placed → Prop} (nil : motive [])
    (append : ∀ r run rest, FirstRun r run rest → motive rest → motive (run ++ rest))
    {l : List Placed} (hl : AllNumbers (values l)) (hs : Ascending l) : motive l := by
  fun_induction tieRuns l with
  | case1 => exact nil
  | case2 a l ih =>
    have hsplit : a :: l = (a :: l.takeWhile (·.1 == a.1)) ++ l.dropWhile (·.1 == a.1) := by
      rw [List.cons_append, List.takeWhile_append_dropWhile]
    have hsub : (l.dropWhile (·.1 == a.1)).Sublist (a :: l) :=
      (List.dropWhile_sublist _).trans (List.sublist_cons_self a l)
    have hrest := ih (fun v hv => hl v ((hsub.map _).subset hv)) (hs.sublist hsub)
    have hfirst : FirstRun (toEReal a.1) (a :: l.takeWhile (·.1 == a.1))
        (l.dropWhile (·.1 == a.1)) :=
      { numbers := hsplit ▸ hl
        nonempty := List.cons_ne_nil _ _
        run_eq := fun c hc => by
          rcases List.mem_cons.1 hc with rfl | hc
          · rfl
          · exact toEReal_of_mem_takeWhile hl hc
        lt_rest := fun c hc => lt_of_mem_dropWhile hl hs hc
        tieRuns_append := by rw [← hsplit, tieRuns] }
    rw [hsplit]
    exact append _ _ _ hfirst hrest

/-! ### Counting in a run and in the rest -/

namespace FirstRun

variable {run rest : List Placed} {r : EReal} {b : Placed} (h : FirstRun r run rest)

include h

theorem isNaN (hb : b ∈ run ++ rest) : b.1.isNaN = false :=
  h.numbers b.1 (List.mem_map_of_mem hb)

theorem isNaN_run (hb : b ∈ run) : b.1.isNaN = false := h.isNaN (List.mem_append_left rest hb)

theorem isNaN_rest (hb : b ∈ rest) : b.1.isNaN = false := h.isNaN (List.mem_append_right run hb)

theorem lower_run (hb : b ∈ run) : lower (values (run ++ rest)) b.1 = 0 := by
  refine List.countP_eq_zero.2 fun v hv => ?_
  obtain ⟨c, hc, rfl⟩ := List.mem_map.1 hv
  rw [decide_eq_true_eq, lt_iff_toEReal (h.isNaN hc) (h.isNaN_run hb), h.run_eq b hb, not_lt]
  rcases List.mem_append.1 hc with hc | hc
  · exact (h.run_eq c hc).ge
  · exact (h.lt_rest c hc).le

theorem equal_run (hb : b ∈ run) : equal (values (run ++ rest)) b.1 = run.length := by
  have hbeq : ∀ c ∈ run ++ rest, (c.1 == b.1) = true ↔ toEReal c.1 = r := fun c hc => by
    rw [beq_iff_toEReal (h.isNaN hc) (h.isNaN_run hb), h.run_eq b hb]
  rw [values, List.map_append, equal_append, equal, List.countP_map, equal, List.countP_map,
    List.countP_eq_length.2, List.countP_eq_zero.2, Nat.add_zero]
  · exact fun c hc heq => (h.lt_rest c hc).ne' ((hbeq c (List.mem_append_right run hc)).1 heq)
  · exact fun c hc => (hbeq c (List.mem_append_left rest hc)).2 (h.run_eq c hc)

theorem lower_rest (hb : b ∈ rest) :
    lower (values (run ++ rest)) b.1 = run.length + lower (values rest) b.1 := by
  rw [values, List.map_append, lower_append, ← values, ← values]
  congr 1
  rw [values, lower, List.countP_map, List.countP_eq_length]
  intro c hc
  refine decide_eq_true ((lt_iff_toEReal (h.isNaN_run hc) (h.isNaN_rest hb)).2 ?_)
  rw [h.run_eq c hc]
  exact h.lt_rest b hb

theorem equal_rest (hb : b ∈ rest) :
    equal (values (run ++ rest)) b.1 = equal (values rest) b.1 := by
  rw [values, List.map_append, equal_append, ← values, ← values, Nat.add_eq_right, values, equal,
    List.countP_map, List.countP_eq_zero]
  intro c hc heq
  have hnumber := (beq_iff_toEReal (h.isNaN_run hc) (h.isNaN_rest hb)).1 heq
  exact (h.lt_rest b hb).ne (by rw [← h.run_eq c hc, hnumber])

end FirstRun

/-! ### The ranks of a sorted list -/

theorem rankRuns_tieRuns {l : List Placed} (hl : AllNumbers (values l)) (hs : Ascending l)
    (start : ℕ) :
    rankRuns start (tieRuns l) =
      l.map fun a => (a.2, midrank (start + lower (values l) a.1) (equal (values l) a.1)) := by
  refine runsInduction (motive := fun l => ∀ start, rankRuns start (tieRuns l) = l.map fun a =>
    (a.2, midrank (start + lower (values l) a.1) (equal (values l) a.1))) ?nil ?append hl hs start
  case nil => exact fun _ => by rw [tieRuns, rankRuns, List.map_nil]
  case append =>
    intro r run rest h ih start
    have hrun : ∀ b ∈ run, (b.2, midrank start run.length) = (b.2, midrank
        (start + lower (values (run ++ rest)) b.1) (equal (values (run ++ rest)) b.1)) := by
      intro b hb
      rw [h.lower_run hb, h.equal_run hb, Nat.add_zero]
    have hrest : ∀ b ∈ rest, (b.2, midrank (start + run.length + lower (values rest) b.1)
        (equal (values rest) b.1)) = (b.2, midrank
        (start + lower (values (run ++ rest)) b.1) (equal (values (run ++ rest)) b.1)) := by
      intro b hb
      rw [h.lower_rest hb, h.equal_rest hb, Nat.add_assoc]
    rw [h.tieRuns_append, rankRuns, ih, List.map_congr_left hrun, List.map_congr_left hrest,
      List.map_append]

theorem sublist_of_mem_tieRuns {l run : List Placed} (h : run ∈ tieRuns l) : run.Sublist l := by
  have hsub := List.sublist_flatten_of_mem h
  rwa [tieRuns_flatten] at hsub

theorem allEqual_of_mem_tieRuns {l run : List Placed} (hl : AllNumbers (values l))
    (h : run ∈ tieRuns l) : AllEqual (values run) := by
  fun_induction tieRuns l with
  | case1 => cases h
  | case2 a l ih =>
    rcases List.mem_cons.1 h with rfl | h
    · have hsame : ∀ v ∈ values (a :: l.takeWhile (·.1 == a.1)),
          v.isNaN = false ∧ toEReal v = toEReal a.1 := by
        intro v hv
        obtain ⟨b, hb, rfl⟩ := List.mem_map.1 hv
        rcases List.mem_cons.1 hb with rfl | hb
        · exact ⟨hl _ List.mem_cons_self, rfl⟩
        · refine ⟨hl _ (List.mem_map_of_mem ?_), toEReal_of_mem_takeWhile hl hb⟩
          exact List.mem_cons_of_mem a ((List.takeWhile_sublist _).subset hb)
      intro v hv w hw
      obtain ⟨hvfin, hv⟩ := hsame v hv
      obtain ⟨hwfin, hw⟩ := hsame w hw
      exact (beq_iff_toEReal hvfin hwfin).2 (hv.trans hw.symm)
    · have hsub : (l.dropWhile (·.1 == a.1)).Sublist (a :: l) :=
        (List.dropWhile_sublist _).trans (List.sublist_cons_self a l)
      exact ih (fun v hv => hl v ((hsub.map _).subset hv)) h

theorem tieRuns_of_allEqual {l : List Placed} (hne : l ≠ []) (h : AllEqual (values l)) :
    tieRuns l = [l] := by
  obtain ⟨a, l, rfl⟩ := List.exists_cons_of_ne_nil hne
  have hall : ∀ b ∈ l, (b.1 == a.1) = true := fun b hb =>
    h _ (List.mem_map_of_mem (List.mem_cons_of_mem a hb)) _ List.mem_cons_self
  have hdrop : l.dropWhile (·.1 == a.1) = [] := List.dropWhile_eq_nil_iff.2 hall
  have htake : l.takeWhile (·.1 == a.1) = l := List.takeWhile_eq_self_iff.2 hall
  rw [tieRuns, hdrop, htake, tieRuns]

/-! ### Sorting there and back -/

theorem values_zipIdx (l : List Float) : values l.zipIdx = l :=
  List.zipIdx_map_fst 0 l

namespace PooledRanks

theorem sortPlaced_perm (l : List Float) : (sortPlaced l).Perm l.zipIdx :=
  List.mergeSort_perm _ _

theorem values_sortPlaced_perm (l : List Float) : (values (sortPlaced l)).Perm l := by
  have h := (sortPlaced_perm l).map (·.1)
  rwa [← values, ← values, values_zipIdx] at h

theorem allNumbers_sortPlaced {l : List Float} (hl : AllNumbers l) :
    AllNumbers (values (sortPlaced l)) :=
  fun v hv => hl v ((values_sortPlaced_perm l).subset hv)

theorem ascending_sortPlaced {l : List Float} (hl : AllNumbers l) : Ascending (sortPlaced l) := by
  have hfin : ∀ a ∈ sortPlaced l, a.1.isNaN = false := fun a ha =>
    allNumbers_sortPlaced hl a.1 (List.mem_map_of_mem ha)
  have hsorted : (sortPlaced l).Pairwise fun a b => totalLE a.1 b.1 = true := by
    apply List.pairwise_mergeSort
    · exact fun a b c => totalLE_trans a.1 b.1 c.1
    · exact fun a b => le_total_totalLE a.1 b.1
  have hle : ∀ {a b}, a ∈ sortPlaced l → b ∈ sortPlaced l → totalLE a.1 b.1 = true →
      toEReal a.1 ≤ toEReal b.1 := fun ha hb h =>
    toEReal_le_of_totalLE (hfin _ ha) (hfin _ hb) h
  exact List.Pairwise.imp_of_mem hle hsorted

/-- A list that is a permutation of one with increasing keys is sorted into it. -/
theorem mergeSort_eq_of_perm {β : Type} {l m : List (ℕ × β)} (hperm : l.Perm m)
    (hm : m.Pairwise fun a b => a.1 < b.1) : l.mergeSort (fun a b => a.1 ≤ b.1) = m := by
  have hnodup : (m.map (·.1)).Nodup := List.pairwise_map.2 (hm.imp fun h => h.ne)
  have hle : ∀ a b : ℕ × β, decide (a.1 ≤ b.1) = true ↔ a.1 ≤ b.1 := fun _ _ => decide_eq_true_iff
  have hdecide : (l.mergeSort fun a b => decide (a.1 ≤ b.1)).Pairwise
      fun a b => decide (a.1 ≤ b.1) = true := by
    refine List.pairwise_mergeSort (fun a b c hab hbc => ?_) (fun a b => ?_) l
    · rw [hle] at *
      exact hab.trans hbc
    · rw [Bool.or_eq_true, hle, hle]
      exact Nat.le_total a.1 b.1
  have hsorted := hdecide.imp fun {a b} => (hle a b).1
  have hperm' := (List.mergeSort_perm l fun a b => decide (a.1 ≤ b.1)).trans hperm
  refine hperm'.eq_of_pairwise (fun a b ha hb hab hba => ?_) hsorted (hm.imp fun h => h.le)
  exact List.inj_on_of_nodup_map hnodup (hperm'.subset ha) hb (Nat.le_antisymm hab hba)

/-- **Ranks are counts.** The rank of a value follows from how many pooled values are lower and
how many are equal; it stands where the value stands. -/
theorem ranks_of {x y : List Float} (hfin : AllNumbers (x ++ y)) :
    (PooledRanks.of x y).ranks =
      (x ++ y).map fun v => midrank (lower (x ++ y) v) (equal (x ++ y) v) := by
  simp only [of]
  generalize x ++ y = l at hfin ⊢
  have hcount : rankRuns 0 (tieRuns (sortPlaced l)) =
      (sortPlaced l).map fun a => (a.2, midrank (lower l a.1) (equal l a.1)) := by
    rw [rankRuns_tieRuns (allNumbers_sortPlaced hfin) (ascending_sortPlaced hfin)]
    refine List.map_congr_left fun a _ => ?_
    rw [Nat.zero_add, lower, equal, (values_sortPlaced_perm l).countP_eq,
      (values_sortPlaced_perm l).countP_eq]
    rfl
  have hincreasing : (l.zipIdx.map fun a => (a.2, midrank (lower l a.1) (equal l a.1))).Pairwise
      fun a b => a.1 < b.1 := by
    rw [List.pairwise_map]
    have h := List.pairwise_lt_range' (s := 0) (n := l.length)
    rw [← List.zipIdx_map_snd 0 l, List.pairwise_map] at h
    exact h
  rw [hcount, mergeSort_eq_of_perm ((sortPlaced_perm l).map _) hincreasing, List.map_map]
  calc l.zipIdx.map ((fun v => midrank (lower l v) (equal l v)) ∘ (·.1))
    _ = (values l.zipIdx).map fun v => midrank (lower l v) (equal l v) := List.map_map.symm
    _ = l.map fun v => midrank (lower l v) (equal l v) := by rw [values_zipIdx]

/-! ### Tie groups -/

section

variable {x y : List Float}

theorem mem_tieGroups {t : ℕ} :
    t ∈ (PooledRanks.of x y).tieGroups ↔
      1 < t ∧ ∃ run ∈ tieRuns (sortPlaced (x ++ y)), run.length = t := by
  simp only [of, List.mem_filter, List.mem_map, decide_eq_true_eq, and_comm]

theorem allEqual_values_sortPlaced {l : List Float} :
    AllEqual (values (sortPlaced l)) ↔ AllEqual l := by
  simp only [AllEqual, (values_sortPlaced_perm l).mem_iff]

theorem length_sortPlaced (l : List Float) : (sortPlaced l).length = l.length := by
  rw [← List.length_map (·.1), ← values, (values_sortPlaced_perm l).length_eq]

/-- Short of all values being equal, no group takes up the whole pooled sample. -/
theorem lt_of_mem_tieGroups (hfin : AllNumbers (x ++ y)) (hne : ¬ AllEqual (x ++ y)) {t : ℕ}
    (ht : t ∈ (PooledRanks.of x y).tieGroups) : t < (x ++ y).length := by
  obtain ⟨-, run, hrun, rfl⟩ := mem_tieGroups.1 ht
  have hsub := sublist_of_mem_tieRuns hrun
  rw [← length_sortPlaced]
  refine lt_of_le_of_ne hsub.length_le fun hlength => hne ?_
  rw [← allEqual_values_sortPlaced, ← hsub.eq_of_length hlength]
  exact allEqual_of_mem_tieRuns (allNumbers_sortPlaced hfin) hrun

theorem sum_tieGroups_le (x y : List Float) :
    (PooledRanks.of x y).tieGroups.sum ≤ (x ++ y).length := by
  calc (PooledRanks.of x y).tieGroups.sum
    _ ≤ ((tieRuns (sortPlaced (x ++ y))).map List.length).sum :=
        List.filter_sublist.sum_le_sum fun _ _ => Nat.zero_le _
    _ = (tieRuns (sortPlaced (x ++ y))).flatten.length := List.length_flatten.symm
    _ = (x ++ y).length := by rw [tieRuns_flatten, length_sortPlaced]

theorem two_mul_length_tieGroups_le (x y : List Float) :
    2 * (PooledRanks.of x y).tieGroups.length ≤ (x ++ y).length := by
  have h : (PooledRanks.of x y).tieGroups.length • 2 ≤ (PooledRanks.of x y).tieGroups.sum :=
    List.card_nsmul_le_sum _ 2 fun t ht => (mem_tieGroups.1 ht).1
  have := sum_tieGroups_le x y
  rw [smul_eq_mul] at h
  omega

theorem length_ranks (hfin : AllNumbers (x ++ y)) :
    (PooledRanks.of x y).ranks.length = (x ++ y).length := by
  rw [ranks_of hfin, List.length_map]

/-- **All values are tied exactly if they are equal.** -/
theorem allTied_of_iff (hfin : AllNumbers (x ++ y)) (hlength : 2 ≤ (x ++ y).length) :
    (PooledRanks.of x y).allTied = true ↔ AllEqual (x ++ y) := by
  rw [allTied, decide_eq_true_eq, length_ranks hfin]
  constructor
  · intro h
    by_contra hne
    have hmem : (x ++ y).length ∈ (PooledRanks.of x y).tieGroups := h ▸ List.mem_singleton_self _
    exact (lt_of_mem_tieGroups hfin hne hmem).false
  · intro h
    have hne : sortPlaced (x ++ y) ≠ [] := by
      rw [← List.length_pos_iff, length_sortPlaced]
      omega
    simp only [of, tieRuns_of_allEqual hne (allEqual_values_sortPlaced.2 h), List.map_cons,
      List.map_nil, length_sortPlaced]
    exact List.filter_eq_self.2 fun t ht => by simp_all; omega

end

end PooledRanks

end Campaign.RankSum
