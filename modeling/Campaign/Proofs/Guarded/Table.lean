import Campaign.Proofs.Guarded.Basic
import Campaign.RankSum.NullDistribution

/-!
# The null distribution by index

The table of the permutation distribution is filled in place, by index. Each pass with a shift `s`
goes over the indexes from `s` on, so the index `s` places below each of them exists; and the tails
that are summed start or end at an index that was compared with the greatest one before.

* `table`, `table?`: the numbers of arrangements, the second one only up to a bound on its size;
* `upperTail`: the probability of a value that is at least `u` rounded down.

## Main statements

* `foldlM_ascending`, `foldlM_descending`: one pass, in either direction;
* `table_eq_ok`, `table?_eq_ok`, `upperTail_eq_ok`: none of them runs into a fault.
-/

namespace Campaign.Guarded

open Binary64 RankSum

/-- The indexes from `first` to before `last`. -/
def indexes (first last : Nat) : List Nat := List.range' first (last - first)

/-- Combines a count with the one `s` places below it. -/
def update (op : Float → Float → Float) (s : Nat) (counts : List Float) (k : Nat) :
    Except Fault (List Float) := do
  let count ← item counts k
  let below ← item counts (← difference k s)
  put counts k (op count below)

/-- The counts after one more factor `(1 - q^(n+i)) / (1 - q^i)`. -/
def factor (n : Nat) (counts : List Float) (i : Nat) : Except Fault (List Float) := do
  let shift := n + i
  let counts ← (indexes shift counts.length).reverse.foldlM (update (· - ·) shift) counts
  (indexes i counts.length).foldlM (update (· + ·) i) counts

/-- The numbers of arrangements by the value of the statistic. -/
def table (n₁ n₂ : Nat) : Except Fault (List Float) := do
  let m := min n₁ n₂
  let n := max n₁ n₂
  let counts ← put (List.replicate (m * n + 1) 0) 0 1
  (indexes 1 (m + 1)).foldlM (factor n) counts

/-- The numbers of arrangements with their sum, if the table has an acceptable size and its numbers
stay finite. -/
def table? (n₁ n₂ : Nat) : Except Fault (Option (List Float × Float)) :=
  if maxCells < n₁ * n₂ then return none
  else do
    let counts ← table n₁ n₂
    let arrangements := sum counts
    return if arrangements.isFinite && counts.all Float.isFinite then some (counts, arrangements)
      else none

/-- The upper tail of a distribution with the given counts. -/
def upperTail (counts : List Float) (arrangements u : Float) : Except Fault Float :=
  if u ≤ 0 then return 1
  else do
    let start := truncate u
    let maxU ← difference counts.length 1
    if maxU < start then return 0
    else
      let reflected ← difference maxU start
      let tail ←
        if reflected < start then slice counts 0 (reflected + 1)
        else slice counts start counts.length
      within 0 1 (sum tail / arrangements)

/-! ### One pass -/

section

variable {size s : Nat} (op : Float → Float → Float)

theorem update_eq_ok (row : Vector Float size) {d : Nat} (h : s + d < size) :
    update op s row.toList (s + d) = .ok (row.set (s + d) (op row[s + d] row[d])).toList := by
  have hcount : row.toList[s + d]? = some row[s + d] := by
    rw [List.getElem?_eq_getElem (by simpa using h), Vector.getElem_toList]
  have hbelow : row.toList[d]? = some row[d] := by
    rw [List.getElem?_eq_getElem (by simp; omega), Vector.getElem_toList]
  have hdifference : difference (s + d) s = .ok d := by
    rw [difference_eq_ok (Nat.le_add_right s d), Nat.add_sub_cancel_left]
  rw [update, item_eq_ok hcount, hdifference, ok_bind, ok_bind, item_eq_ok hbelow, ok_bind,
    put_eq_ok (by simpa using h), Vector.toList_set]

/-- A pass from the lowest index on: each step reads a count that is already updated. -/
theorem foldlM_ascending (c : Vector Float size) {n : Nat} (hn : n ≤ size - s) :
    (List.range' s n).foldlM (update op s) c.toList =
      .ok (n.fold (fun d _ row => row.set (s + d) (op row[s + d] row[d])) c).toList := by
  induction n with
  | zero => rfl
  | succ n ih =>
    rw [List.range'_1_concat, List.foldlM_append, ih (by omega), ok_bind, List.foldlM_cons,
      update_eq_ok op _ (by omega), Nat.fold_succ]
    rfl

/-- A pass from the highest index down: each step reads a count that is not updated yet. -/
theorem foldlM_descending (c : Vector Float size) {n : Nat} (hn : n ≤ size - s) :
    (List.range' s n).reverse.foldlM (update op s) c.toList =
      .ok (n.foldRev (fun d _ row => row.set (s + d) (op row[s + d] row[d])) c).toList := by
  induction n generalizing c with
  | zero => rfl
  | succ n ih =>
    rw [List.range'_1_concat, List.reverse_append, List.reverse_singleton, List.singleton_append,
      List.foldlM_cons, update_eq_ok op c (by omega), Nat.foldRev_succ]
    exact ih _ (by omega)

end

/-! ### The table -/

section

variable {size : Nat}

theorem factor_eq_ok (n i : Nat) (c : Vector Float size) :
    factor n c.toList i = .ok (Gaussian.mulFactor n i c).toList := by
  have hlength (c : Vector Float size) : c.toList.length = size := Vector.length_toList
  have hdown := foldlM_descending (· - ·) c (Nat.le_refl (size - (n + i)))
  have hup := foldlM_ascending (· + ·) (Gaussian.mulOneSub (n + i) c) (Nat.le_refl (size - i))
  simp only [factor, indexes, hlength, hdown, ok_bind]
  exact hup

theorem foldlM_factor (m n i : Nat) :
    (List.range' 1 i).foldlM (factor n) (Gaussian.one (m * n + 1) : Vector Float _).toList =
      .ok (Gaussian.partialCoefficients Float m n i).toList := by
  induction i with
  | zero => rfl
  | succ i ih =>
    rw [List.range'_1_concat, List.foldlM_append, ih, ok_bind, List.foldlM_cons, factor_eq_ok,
      Nat.add_comm 1 i]
    rfl

theorem replicate_set_eq_one (size : Nat) :
    (List.replicate (size + 1) (0 : Float)).set 0 1 =
      (Gaussian.one (size + 1) : Vector Float _).toList := by
  refine List.ext_getElem (by simp) fun k _ _ => ?_
  cases k <;> simp [Gaussian.one]

/-- **The table is filled without a fault.** -/
theorem table_eq_ok (n₁ n₂ : Nat) :
    table n₁ n₂ = .ok (NullDistribution.tabulate n₁ n₂).counts.toList := by
  rw [table, put_eq_ok (by simp), NullDistribution.counts_tabulate]
  simp only [replicate_set_eq_one]
  exact foldlM_factor (min n₁ n₂) (max n₁ n₂) (min n₁ n₂)

theorem table?_eq_ok (n₁ n₂ : Nat) :
    table? n₁ n₂ = .ok ((NullDistribution.tabulate? n₁ n₂).map fun d =>
      (d.counts.toList, d.arrangements)) := by
  rw [table?, NullDistribution.tabulate?]
  split
  · rfl
  · rw [table_eq_ok, ok_bind, ← NullDistribution.arrangements_eq_sum, Vector.all_toList]
    dsimp only
    split <;> rfl

end

/-- **A tail is summed without a fault.** -/
theorem upperTail_eq_ok (d : NullDistribution) (u : Float) :
    upperTail d.counts.toList d.arrangements u = .ok (d.upperTail u) := by
  have hlength : d.counts.toList.length = d.maxU + 1 := Vector.length_toList
  have hsum {first last : Nat} (h : first ≤ last) (hlast : last ≤ d.maxU + 1) :
      ∃ tail, slice d.counts.toList first last = .ok tail ∧ sum tail = d.countSum first last := by
    refine ⟨_, slice_eq_ok h (hlength.symm ▸ hlast), ?_⟩
    rw [NullDistribution.countSum, ← Array.foldl_toList, Array.toList_extract,
      List.extract_eq_take_drop, Vector.toList_toArray, List.drop_take, sum]
  rw [upperTail, NullDistribution.upperTail]
  split
  · rfl
  · rw [difference_eq_ok (by omega), ok_bind, hlength, Nat.add_sub_cancel]
    dsimp only
    split
    · rfl
    · rename_i hstart
      rw [difference_eq_ok (Nat.not_lt.1 hstart), ok_bind]
      split
      · obtain ⟨tail, htail, hsame⟩ := hsum (Nat.zero_le (d.maxU - truncate u + 1)) (by omega)
        rw [htail, ok_bind, within_unit, hsame]
      · obtain ⟨tail, htail, hsame⟩ := hsum (show truncate u ≤ d.maxU + 1 by omega) (Nat.le_refl _)
        rw [htail, ok_bind, within_unit, hsame]

end Campaign.Guarded
