import Campaign.Proofs.Guarded.Basic
import Campaign.Proofs.RankSum.Midranks

/-!
# Midranks by index

The pooled values are ranked through a list of their positions, sorted by value: the run of equal
values that starts at a place of this list is followed to its end, and the rank of the run is
written at the positions of its members. All positions are below the number of values because
sorting only changes their order; so no place that is read or written is missing, whatever the
values are.

* `pooledRanks`: the ranks of two samples;
* `allTied`: whether all values are tied.

## Main statements

* `runEnd_eq_ok`: the end of a run;
* `rankFrom_eq_ok`: the loop over the runs of the rest of the list;
* `mergeSort_eq_writeAll`: sorting ranks by position is writing each rank at its position;
* `pooledRanks_eq_ok`: ranking runs into no fault.
-/

namespace Campaign.Guarded

open Binary64 RankSum PooledRanks

section

variable (pooled : List Float) (order : List Nat)

/-- The value at a place of the order. -/
def valueAt (place : Nat) : Except Fault Float := do
  item pooled (← item order place)

/-- The last place of the run that starts at a place, searched from `last` on. -/
def runEnd (start last : Nat) (h : start ≤ last) : Except Fault {k : Nat // start ≤ k} :=
  if _hlast : last + 1 < order.length then do
    let next ← valueAt pooled order (last + 1)
    let first ← valueAt pooled order start
    if next == first then runEnd start (last + 1) (by omega) else return ⟨last, h⟩
  else return ⟨last, h⟩
termination_by order.length - last

/-- The ranks with one rank written at each of some positions. -/
def assign (rank : Float) (ranks : List Float) (positions : List Nat) :
    Except Fault (List Float) :=
  positions.foldlM (fun ranks i => put ranks i rank) ranks

/-- Ranks the runs from a place of the order on. -/
def rankFrom (start : Nat) (ranks : List Float) (groups : List Nat) : Except Fault PooledRanks :=
  if _hstart : start < order.length then do
    let ⟨last, _hlast⟩ ← runEnd pooled order start start (Nat.le_refl start)
    let positions ← slice order start (last + 1)
    let ranks ← assign ((start + last).toFloat / 2 + 1) ranks positions
    let size := (← difference last start) + 1
    rankFrom (last + 1) ranks (if 1 < size then groups ++ [size] else groups)
  else return ⟨ranks, groups⟩
termination_by order.length - start

end

/-- The positions of the values in the order of the values. -/
def sortedPositions (pooled : List Float) : Except Fault (List Nat) := do
  let keyed ← (List.range pooled.length).mapM fun i => do return (← item pooled i, i)
  return (keyed.mergeSort fun a b => totalLE a.1 b.1).map (·.2)

/-- The ranks of the values of `x` followed by those of `y`. -/
def pooledRanks (x y : List Float) : Except Fault PooledRanks := do
  let pooled := x ++ y
  let order ← sortedPositions pooled
  rankFrom pooled order 0 (List.replicate pooled.length 0) []

/-- Whether all values are tied. -/
def allTied (r : PooledRanks) : Except Fault Bool :=
  if r.tieGroups.length = 1 then do
    let size ← item r.tieGroups 0
    return size = r.ranks.length
  else return false

/-! ### One run -/

/-- The positions of a list with positions. -/
def positions (l : List Placed) : List Nat := l.map (·.2)

theorem length_positions (l : List Placed) : (positions l).length = l.length := List.length_map _

theorem positions_append (l m : List Placed) : positions (l ++ m) = positions l ++ positions m :=
  List.map_append

section

variable {pooled : List Float} {before : List Placed} {a : Placed}

theorem valueAt_append (before l : List Placed) (h : pooled[a.2]? = some a.1) :
    valueAt pooled (positions (before ++ a :: l)) before.length = .ok a.1 := by
  have hplace : (positions (before ++ a :: l))[before.length]? = some a.2 := by simp [positions]
  rw [valueAt, item_eq_ok hplace, ok_bind, item_eq_ok h]

/-- **The end of a run.** The places up to `last` are known to belong to it. -/
theorem runEnd_eq_ok {passed rest : List Placed}
    (hpooled : ∀ b ∈ before ++ a :: (passed ++ rest), pooled[b.2]? = some b.1) {last : ℕ}
    (hlast : last = before.length + passed.length) (h : before.length ≤ last) :
    runEnd pooled (positions (before ++ a :: (passed ++ rest))) before.length last h =
      .ok ⟨last + (rest.takeWhile (·.1 == a.1)).length, Nat.le_add_right_of_le h⟩ := by
  induction rest generalizing passed last with
  | nil =>
    have hend : ¬ last + 1 < (positions (before ++ a :: (passed ++ []))).length := by
      simp [length_positions]
      omega
    rw [runEnd, dif_neg hend]
    rfl
  | cons b rest ih =>
    have hmore : last + 1 < (positions (before ++ a :: (passed ++ b :: rest))).length := by
      simp [length_positions]
      omega
    have hfirst : valueAt pooled (positions (before ++ a :: (passed ++ b :: rest))) before.length =
        .ok a.1 := valueAt_append before _ (hpooled a (by simp))
    have hnext : valueAt pooled (positions (before ++ a :: (passed ++ b :: rest))) (last + 1) =
        .ok b.1 := by
      have hvalue := valueAt_append (before ++ a :: passed) rest (hpooled b (by simp))
      have hplace : (before ++ a :: passed).length = last + 1 := by
        simp
        omega
      rwa [hplace, List.append_assoc, List.cons_append] at hvalue
    rw [runEnd, dif_pos hmore, hnext, ok_bind, hfirst, ok_bind, List.takeWhile_cons]
    split
    · have hshift : passed ++ b :: rest = passed ++ [b] ++ rest := by simp
      rw [hshift] at hpooled ⊢
      rw [ih hpooled (by simp; omega)]
      simp
      omega
    · rfl

end

/-! ### All runs -/

/-- The ranks with each of some ranks written at its position. -/
def writeAll (ranks : List Float) (ps : List (Nat × Float)) : List Float :=
  ps.foldl (fun ranks p => ranks.set p.1 p.2) ranks

theorem length_writeAll (ranks : List Float) (ps : List (ℕ × Float)) :
    (writeAll ranks ps).length = ranks.length := by
  induction ps generalizing ranks with
  | nil => rfl
  | cons p ps ih => rw [writeAll, List.foldl_cons, ← writeAll, ih, List.length_set]

theorem writeAll_append (ranks : List Float) (ps qs : List (ℕ × Float)) :
    writeAll ranks (ps ++ qs) = writeAll (writeAll ranks ps) qs := List.foldl_append

theorem assign_eq_ok (rank : Float) {ranks : List Float} {run : List Placed}
    (h : ∀ b ∈ run, b.2 < ranks.length) :
    assign rank ranks (positions run) = .ok (writeAll ranks (run.map fun b => (b.2, rank))) := by
  induction run generalizing ranks with
  | nil => rfl
  | cons b run ih =>
    have hrest : ∀ c ∈ run, c.2 < (ranks.set b.2 rank).length := fun c hc => by
      rw [List.length_set]
      exact h c (List.mem_cons_of_mem b hc)
    rw [assign, positions, List.map_cons, List.foldlM_cons, put_eq_ok (h b List.mem_cons_self),
      ok_bind, ← positions, ← assign, ih hrest]
    rfl

/-- One turn of the loop ranks the run that starts at the place that is reached. -/
theorem rankFrom_turn {pooled : List Float} {before l : List Placed} {a : Placed}
    (hpooled : ∀ b ∈ before ++ a :: l, pooled[b.2]? = some b.1) {run : List Placed}
    (hrun : run = l.takeWhile (·.1 == a.1)) {ranks : List Float}
    (hlength : ranks.length = pooled.length) (groups : List ℕ) :
    rankFrom pooled (positions (before ++ a :: l)) before.length ranks groups =
      rankFrom pooled (positions (before ++ a :: l)) (before ++ a :: run).length
        (writeAll ranks ((a :: run).map fun b => (b.2, midrank before.length (a :: run).length)))
        (if 1 < run.length + 1 then groups ++ [run.length + 1] else groups) := by
  have hsplit : before ++ a :: l =
      before ++ (a :: run ++ l.dropWhile (·.1 == a.1)) := by
    rw [List.cons_append, hrun, List.takeWhile_append_dropWhile]
  have hmore : before.length < (positions (before ++ a :: l)).length := by simp [length_positions]
  have hlast : runEnd pooled (positions (before ++ a :: l)) before.length before.length
      (Nat.le_refl _) = .ok ⟨before.length + run.length, Nat.le_add_right ..⟩ := by
    subst hrun
    exact runEnd_eq_ok (show ∀ b ∈ before ++ a :: ([] ++ l), _ from hpooled) rfl _
  have hslice : slice (positions (before ++ a :: l)) before.length
      (before.length + run.length + 1) = .ok (positions (a :: run)) := by
    have := slice_append (positions before) (positions (a :: run))
      (positions (l.dropWhile (·.1 == a.1)))
    rwa [← positions_append, ← positions_append, ← hsplit, length_positions,
      length_positions] at this
  have hinside : ∀ b ∈ a :: run, b.2 < ranks.length := fun b hb => by
    have hmem : b ∈ before ++ a :: l := by
      rw [hsplit]
      exact List.mem_append_right _ (List.mem_append_left _ hb)
    rw [hlength]
    exact (List.getElem?_eq_some_iff.1 (hpooled b hmem)).1
  have hassign := assign_eq_ok (midrank before.length (a :: run).length) hinside
  have hsize : difference (before.length + run.length) before.length = .ok run.length := by
    rw [difference_eq_ok (Nat.le_add_right ..), Nat.add_sub_cancel_left]
  have hplace : (before ++ a :: run).length = before.length + run.length + 1 := by
    simp
    omega
  rw [rankFrom, dif_pos hmore, hlast, ok_bind, hplace]
  simp only [hslice, ok_bind, hsize]
  change (assign (midrank before.length (a :: run).length) ranks (positions (a :: run)) >>= _) = _
  rw [hassign, ok_bind]

/-- **The loop over the runs.** What has been ranked stands before the place that is reached. -/
theorem rankFrom_eq_ok {pooled : List Float} {before l : List Placed}
    (hpooled : ∀ b ∈ before ++ l, pooled[b.2]? = some b.1) {ranks : List Float}
    (hlength : ranks.length = pooled.length) (groups : List ℕ) :
    rankFrom pooled (positions (before ++ l)) before.length ranks groups =
      .ok ⟨writeAll ranks (rankRuns before.length (tieRuns l)),
        groups ++ ((tieRuns l).map List.length).filter (1 < ·)⟩ := by
  fun_induction tieRuns l generalizing before ranks groups with
  | case1 =>
    have hend : ¬ before.length < (positions (before ++ [])).length := by simp [length_positions]
    rw [rankFrom, dif_neg hend, List.map_nil, List.filter_nil, List.append_nil]
    rfl
  | case2 a l ih =>
    rw [rankFrom_turn hpooled rfl hlength]
    have hsplit : before ++ a :: l =
        (before ++ a :: l.takeWhile (·.1 == a.1)) ++ l.dropWhile (·.1 == a.1) := by
      rw [List.append_assoc, List.cons_append, List.takeWhile_append_dropWhile]
    rw [hsplit] at hpooled ⊢
    rw [ih hpooled ((length_writeAll _ _).trans hlength), rankRuns, writeAll_append,
      List.length_append]
    -- what is left is that a run of one value makes no group
    by_cases hmany : 1 < (l.takeWhile (·.1 == a.1)).length + 1 <;> simp [hmany]

/-! ### Sorting by position -/

theorem getElem?_writeAll_of_not_mem {ps : List (ℕ × Float)} {i : ℕ} (h : i ∉ ps.map (·.1))
    (ranks : List Float) : (writeAll ranks ps)[i]? = ranks[i]? := by
  induction ps generalizing ranks with
  | nil => rfl
  | cons p ps ih =>
    rw [List.map_cons, List.mem_cons, not_or] at h
    rw [writeAll, List.foldl_cons, ← writeAll, ih h.2, List.getElem?_set_ne (Ne.symm h.1)]

/-- Each rank stands at its position in the end, if no position is written twice. -/
theorem getElem?_writeAll {ps : List (ℕ × Float)} (hnodup : (ps.map (·.1)).Nodup) {i : ℕ}
    {rank : Float} (h : (i, rank) ∈ ps) {ranks : List Float} (hi : i < ranks.length) :
    (writeAll ranks ps)[i]? = some rank := by
  induction ps generalizing ranks with
  | nil => cases h
  | cons p ps ih =>
    obtain ⟨hnew, hnodup⟩ := List.nodup_cons.1 hnodup
    rw [writeAll, List.foldl_cons, ← writeAll]
    rcases List.mem_cons.1 h with rfl | h
    · rw [getElem?_writeAll_of_not_mem hnew, List.getElem?_set_self hi]
    · exact ih hnodup h (by rwa [List.length_set])

/-- **Sorting ranks by position is writing each rank at its position.** -/
theorem mergeSort_eq_writeAll {ps : List (ℕ × Float)} {n : ℕ}
    (h : (ps.map (·.1)).Perm (List.range n)) :
    (ps.mergeSort fun a b => a.1 ≤ b.1).map (·.2) = writeAll (List.replicate n 0) ps := by
  set out := writeAll (List.replicate n 0) ps with hout
  have hlength : out.length = n := by rw [hout, length_writeAll, List.length_replicate]
  have hnodup : (ps.map (·.1)).Nodup := h.nodup_iff.2 List.nodup_range
  have hget : ∀ p ∈ ps, out[p.1]? = some p.2 := fun p hp => by
    refine getElem?_writeAll hnodup hp ?_
    rw [List.length_replicate, ← List.mem_range, ← h.mem_iff]
    exact List.mem_map_of_mem hp
  have hmem : ∀ p : ℕ × Float, p ∈ out.zipIdx.map Prod.swap ↔ out[p.1]? = some p.2 := by
    rintro ⟨i, rank⟩
    rw [List.mem_map]
    constructor
    · rintro ⟨q, hq, hswap⟩
      obtain ⟨rfl, rfl⟩ := Prod.mk.inj hswap
      exact List.mem_zipIdx_iff_getElem?.1 hq
    · exact fun hi => ⟨(rank, i), List.mem_zipIdx_iff_getElem?.2 hi, rfl⟩
  have hkeys : (out.zipIdx.map Prod.swap).map (·.1) = List.range' 0 out.length := by
    rw [List.map_map, ← List.zipIdx_map_snd 0 out]
    rfl
  have hincreasing : (out.zipIdx.map Prod.swap).Pairwise fun a b => a.1 < b.1 := by
    rw [← List.pairwise_map, hkeys]
    exact List.pairwise_lt_range'
  have hperm : ps.Perm (out.zipIdx.map Prod.swap) := by
    refine (List.perm_ext_iff_of_nodup (List.Nodup.of_map _ hnodup)
      (List.Nodup.of_map (·.1) ?_)).2 fun p => ⟨fun hp => (hmem p).2 (hget p hp), fun hp => ?_⟩
    · rw [hkeys]
      exact List.nodup_range'
    · have hp := (hmem p).1 hp
      have hkey : p.1 ∈ ps.map (·.1) := by
        rw [h.mem_iff, List.mem_range, ← hlength]
        exact (List.getElem?_eq_some_iff.1 hp).1
      obtain ⟨q, hq, hsame⟩ := List.mem_map.1 hkey
      have hrank := hget q hq
      rw [hsame, hp] at hrank
      obtain rfl : q = p := Prod.ext hsame (Option.some.inj hrank).symm
      exact hq
  rw [mergeSort_eq_of_perm hperm hincreasing, List.map_map]
  exact List.zipIdx_map_fst 0 out

/-! ### The ranks of two samples -/

theorem map_fst_rankRuns (start : ℕ) (runs : List (List Placed)) :
    (rankRuns start runs).map (·.1) = positions runs.flatten := by
  induction runs generalizing start with
  | nil => rfl
  | cons run runs ih =>
    rw [rankRuns, List.map_append, ih, List.flatten_cons, positions_append, List.map_map]
    rfl

theorem sortedPositions_eq_ok (pooled : List Float) :
    sortedPositions pooled = .ok (positions (sortPlaced pooled)) := by
  have hkeyed : (List.range pooled.length).mapM (fun i => do return (← item pooled i, i)) =
      .ok pooled.zipIdx := by
    rw [mapM_eq_ok (g := fun i => (pooled.getD i 0, i)) fun i hi => ?_]
    · refine congrArg _ (List.ext_getElem (by simp) fun i hi _ => ?_)
      have hi : i < pooled.length := by simpa using hi
      simp [hi]
    · have hi := List.mem_range.1 hi
      rw [item_eq_ok (List.getElem?_eq_getElem hi), List.getD_eq_getElem _ _ hi]
      rfl
  rw [sortedPositions, hkeyed]
  rfl

/-- **Ranking runs into no fault**, and reads what the runs of the sorted list say. -/
theorem pooledRanks_eq_ok (x y : List Float) : pooledRanks x y = .ok (PooledRanks.of x y) := by
  rw [pooledRanks, sortedPositions_eq_ok, ok_bind]
  set pooled := x ++ y with hpool
  have hpooled : ∀ b ∈ [] ++ sortPlaced pooled, pooled[b.2]? = some b.1 := fun b hb =>
    List.mem_zipIdx_iff_getElem?.1 ((sortPlaced_perm pooled).subset hb)
  have hkeys : ((rankRuns 0 (tieRuns (sortPlaced pooled))).map (·.1)).Perm
      (List.range pooled.length) := by
    have hpositions := (sortPlaced_perm pooled).map (·.2)
    rw [List.zipIdx_map_snd, ← List.range_eq_range'] at hpositions
    rw [map_fst_rankRuns, tieRuns_flatten]
    exact hpositions
  have hloop := rankFrom_eq_ok hpooled (List.length_replicate (n := pooled.length) (a := 0)) []
  rw [List.nil_append, List.length_nil] at hloop
  rw [hloop, ← mergeSort_eq_writeAll hkeys]
  rfl

theorem allTied_eq_ok (r : PooledRanks) : allTied r = .ok r.allTied := by
  obtain ⟨ranks, groups⟩ := r
  rcases groups with _ | ⟨size, _ | ⟨size', groups⟩⟩
  · rfl
  · change Except.ok (decide (size = ranks.length)) = _
    simp [PooledRanks.allTied]
  · change Except.ok false = _
    simp [PooledRanks.allTied]

end Campaign.Guarded
