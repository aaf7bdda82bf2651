import Campaign.Proofs.RankSum.Arrangements
import Mathlib.Combinatorics.Enumerative.Partition.Basic

/-!
# Numbers of arrangements as numbers of partitions

The statistic of an arrangement is the sum over its ranks of how many values of the other sample
are below. These numbers form a partition of the statistic with at most `m` parts, each at most
`n`. Both sides are counted by one recursion, on whether the greatest possible part occurs.

* `boxed m n k`: the partitions of `k` with at most `m` parts, each at most `n`.

## Main statements

* `card_boxed_succ_succ`: how these partitions are counted by recursion.
* `card_boxed`: they are as many as the arrangements with the statistic `k`.
-/

namespace Campaign.RankSum

open Finset

/-- The partitions of `k` with at most `m` parts, each at most `n`. -/
def boxed (m n k : ℕ) : Finset k.Partition :=
  {p | (∀ a ∈ p.parts, a ≤ n) ∧ p.parts.card ≤ m}

variable {m n k : ℕ}

theorem mem_boxed {p : k.Partition} :
    p ∈ boxed m n k ↔ (∀ a ∈ p.parts, a ≤ n) ∧ p.parts.card ≤ m := by
  simp only [boxed, mem_filter, mem_univ, true_and]

/-! ### The recursion -/

/-- Only zero has a partition without parts. -/
theorem card_boxed_of_parts_eq_zero (h : ∀ p ∈ boxed m n k, p.parts = 0) :
    #(boxed m n k) = if k = 0 then 1 else 0 := by
  split_ifs with hk
  · subst hk
    have hall : boxed m n 0 = univ := eq_univ_of_forall fun p => mem_boxed.2 (by simp)
    rw [hall, card_univ, Fintype.card_unique]
  · refine card_eq_zero.2 (eq_empty_of_forall_notMem fun p hp => hk ?_)
    rw [← p.parts_sum, h p hp, Multiset.sum_zero]

theorem card_boxed_zero (n k : ℕ) : #(boxed 0 n k) = if k = 0 then 1 else 0 :=
  card_boxed_of_parts_eq_zero fun _ hp =>
    Multiset.card_eq_zero.1 (Nat.le_zero.1 (mem_boxed.1 hp).2)

theorem card_boxed_zero_right (m k : ℕ) : #(boxed m 0 k) = if k = 0 then 1 else 0 :=
  card_boxed_of_parts_eq_zero fun p hp => Multiset.eq_zero_of_forall_notMem fun a ha =>
    (p.parts_pos ha).not_ge ((mem_boxed.1 hp).1 a ha)

/-- Without the greatest possible part, all parts are smaller. -/
theorem filter_notMem_boxed (m n k : ℕ) :
    {p ∈ boxed m (n + 1) k | n + 1 ∉ p.parts} = boxed m n k := by
  ext p
  rw [mem_filter, mem_boxed, mem_boxed]
  constructor
  · rintro ⟨⟨hle, hcard⟩, hnot⟩
    refine ⟨fun a ha => ?_, hcard⟩
    have hne : a ≠ n + 1 := fun h => hnot (h ▸ ha)
    have := hle a ha
    omega
  · rintro ⟨hle, hcard⟩
    exact ⟨⟨fun a ha => (hle a ha).trans n.le_succ, hcard⟩,
      fun ha => (hle _ ha).not_gt n.lt_succ_self⟩

/-- One more part, as large as a part may be, needs room for one more part. -/
theorem mem_boxed_of_parts_eq_cons {j : ℕ} {p : k.Partition} {q : j.Partition}
    (h : p.parts = n ::ₘ q.parts) : p ∈ boxed (m + 1) n k ↔ q ∈ boxed m n j := by
  rw [mem_boxed, mem_boxed, h, Multiset.card_cons, Nat.add_le_add_iff_right]
  simp only [Multiset.mem_cons, forall_eq_or_imp, le_refl, true_and]

/-- The greatest possible part can be taken away once. -/
theorem card_filter_mem_boxed (m : ℕ) (h : n + 1 ≤ k) :
    #{p ∈ boxed (m + 1) (n + 1) k | n + 1 ∈ p.parts} = #(boxed m (n + 1) (k - (n + 1))) := by
  let remove := Nat.Partition.partitionWithPartEquiv n.succ_pos h
  have hparts : ∀ q, (remove.symm q).1.parts = (n + 1) ::ₘ q.parts :=
    Nat.Partition.partitionWithPartEquiv_symm_apply_parts n.succ_pos h
  symm
  refine card_bij (fun q _ => (remove.symm q).1) (fun q hq => ?_) (fun q _ q' _ heq => ?_)
    fun p hp => ?_
  · exact mem_filter.2 ⟨(mem_boxed_of_parts_eq_cons (hparts q)).2 hq, (remove.symm q).2⟩
  · exact remove.symm.injective (Subtype.ext heq)
  · obtain ⟨hbox, hmem⟩ := mem_filter.1 hp
    have hback : (remove.symm (remove ⟨p, hmem⟩)).1 = p := by rw [Equiv.symm_apply_apply]
    have hcons := (congrArg Nat.Partition.parts hback).symm.trans (hparts _)
    exact ⟨remove ⟨p, hmem⟩, (mem_boxed_of_parts_eq_cons hcons).1 hbox, hback⟩

theorem card_boxed_succ_succ (m n k : ℕ) : #(boxed (m + 1) (n + 1) k) =
    #(boxed (m + 1) n k) + if n + 1 ≤ k then #(boxed m (n + 1) (k - (n + 1))) else 0 := by
  rw [← card_filter_add_card_filter_not (n + 1 ∈ Nat.Partition.parts ·), filter_notMem_boxed,
    add_comm]
  congr 1
  split_ifs with h
  · exact card_filter_mem_boxed m h
  · refine card_eq_zero.2 (filter_eq_empty_iff.2 fun p _ hp => h (p.le_of_mem_parts hp))

/-! ### Both numbers -/

/-- **Numbers of arrangements are numbers of partitions.** -/
theorem card_boxed (m n k : ℕ) : #(boxed m n k) = count m n k := by
  induction m generalizing n k with
  | zero => rw [card_boxed_zero, count_zero_left]
  | succ m ihm =>
    induction n generalizing k with
    | zero => rw [card_boxed_zero_right, count_comm, count_zero_left]
    | succ n ihn =>
      rw [card_boxed_succ_succ, count_succ_succ, ihn, ihm]

end Campaign.RankSum
