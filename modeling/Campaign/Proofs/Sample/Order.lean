import Campaign.Proofs.Binary64.Index
import Campaign.Proofs.Sample.Figures

/-!
# Order statistics

The least and the greatest value and the median are read off the values in ascending order. The
total order tells any two doubles apart, zeros of both signs too, so there is one ascending order of
the values and what is read off it does not depend on the order in which they were measured.

The median is read at half the greatest index. This is whole if the number of values is odd, and
else the fraction is one half exactly, so that both neighbours count by their halves.

## Main statements

* `totalKey_injective`: the total order tells doubles apart.
* `median_odd`, `median_even`: the median by the number of values.
* `Sample.summary_order`: the order statistics of a sample.
-/

namespace Campaign

open Binary64

/-! ### Ascending values -/

/-- **The total order tells any two doubles apart.** -/
theorem Binary64.totalKey_injective : Function.Injective totalKey := by
  intro x y h
  have hx := x.toBits.toNat_lt
  have hy := y.toBits.toNat_lt
  refine Float.toBits_inj.1 (UInt64.toNat.inj ?_)
  simp only [totalKey] at h
  split_ifs at h <;> omega

theorem totalLE_antisymm {x y : Float} (h : totalLE x y = true) (h' : totalLE y x = true) :
    x = y := by
  simp only [totalLE, decide_eq_true_eq] at h h'
  exact totalKey_injective (le_antisymm h h')

/-- There is one ascending order of the same values. -/
theorem eq_of_ascending {l l' : List Float} (hperm : l.Perm l')
    (h : l.Pairwise (totalLE · ·)) (h' : l'.Pairwise (totalLE · ·)) : l = l' :=
  hperm.eq_of_pairwise (fun _ _ _ _ => totalLE_antisymm) h h'

theorem totalLE_self (x : Float) : totalLE x x = true := by simp [totalLE]

theorem totalLE_head {l : List Float} {x : Float} (h : l.Pairwise (totalLE · ·))
    (hx : l.head? = some x) : x ∈ l ∧ ∀ v ∈ l, totalLE x v = true := by
  obtain ⟨rest, rfl⟩ := List.head?_eq_some_iff.1 hx
  refine ⟨List.mem_cons_self, List.forall_mem_cons.2 ⟨totalLE_self x, ?_⟩⟩
  exact (List.pairwise_cons.1 h).1

theorem totalLE_getLast {l : List Float} {x : Float} (h : l.Pairwise (totalLE · ·))
    (hx : l.getLast? = some x) : x ∈ l ∧ ∀ v ∈ l, totalLE v x = true := by
  obtain ⟨rest, rfl⟩ := List.getLast?_eq_some_iff.1 hx
  refine ⟨by simp, List.forall_mem_append.2 ⟨fun v hv => ?_, by simp [totalLE_self]⟩⟩
  exact (List.pairwise_append.1 h).2.2 v hv x (List.mem_singleton_self x)

theorem sorted_perm (s : Sample) : s.sorted.Perm s.values := List.mergeSort_perm ..

theorem pairwise_sorted (s : Sample) : s.sorted.Pairwise (totalLE · ·) :=
  List.pairwise_mergeSort totalLE_trans le_total_totalLE s.values

theorem sorted_congr {s t : Sample} (h : t.values.Perm s.values) : t.sorted = s.sorted :=
  eq_of_ascending ((sorted_perm t).trans (h.trans (sorted_perm s).symm)) (pairwise_sorted t)
    (pairwise_sorted s)

/-! ### The median -/

section

variable {k : ℕ}

theorem half_double (k : ℕ) : ((2 * k : ℕ) : ℝ) / 2 = k := by
  push_cast
  ring

theorem half_double_succ (k : ℕ) : ((2 * k + 1 : ℕ) : ℝ) / 2 = k + 1 / 2 := by
  push_cast
  ring

theorem floor_add_half (k : ℕ) : ⌊(k : ℝ) + 1 / 2⌋₊ = k := by
  rw [Nat.floor_eq_iff (by positivity)]
  constructor <;> linarith

theorem ceil_add_half (k : ℕ) : ⌈(k : ℝ) + 1 / 2⌉₊ = k + 1 := by
  rw [Nat.ceil_eq_iff (Nat.succ_ne_zero k), Nat.succ_sub_one]
  push_cast
  constructor <;> linarith

/-- The greatest index of an odd number of values is twice that of the median. -/
theorem median_odd {l : List Float} (h : l.length = 2 * k + 1) (hk : l.length < 2 ^ 52) :
    percentile? l 50 = l[k]? := by
  cases k with
  | zero =>
    obtain ⟨v, rfl⟩ := List.length_eq_one_iff.1 h
    rfl
  | succ k =>
    have hindex : HasValue (0.5 * (l.length - 1).toFloat) (k + 1 : ℕ) := by
      rw [← half_double (k + 1), show l.length - 1 = 2 * (k + 1) by omega]
      exact hasValue_half_mul (by omega)
    have hrange : ((k + 1 : ℕ) : ℝ) < 2 ^ 64 := by exact_mod_cast (by omega : k + 1 < 2 ^ 64)
    have hlower := truncate_eq hindex (by positivity) hrange
    have hupper := ceilNat_eq hindex (by positivity) hrange
    rw [Nat.floor_natCast] at hlower
    rw [Nat.ceil_natCast] at hupper
    rw [median_eq (by omega)]
    simp only [hlower, hupper, if_true]

theorem one_sub_half : (1 - 0.5 : Float) = 0.5 := by decide +kernel

/-- Between the two indexes in the middle of an even number of values, both neighbours count by
their halves. -/
theorem median_even {l : List Float} (h : l.length = 2 * k + 2) (hk : l.length < 2 ^ 52) :
    ∃ a b, l[k]? = some a ∧ l[k + 1]? = some b ∧ percentile? l 50 = some (a * 0.5 + b * 0.5) := by
  have hindex : HasValue (0.5 * (l.length - 1).toFloat) (k + 1 / 2) := by
    rw [← half_double_succ, show l.length - 1 = 2 * k + 1 by omega]
    exact hasValue_half_mul (by omega)
  have hrange : (k : ℝ) + 1 / 2 < 2 ^ 64 := by
    have : (k : ℝ) ≤ 2 ^ 52 := by exact_mod_cast (by omega : k ≤ 2 ^ 52)
    linarith
  have hlower := truncate_eq hindex (by positivity) hrange
  have hupper := ceilNat_eq hindex (by positivity) hrange
  have hfract := hindex.fract (by positivity) hrange
  rw [floor_add_half] at hlower
  rw [ceil_add_half] at hupper
  have hweight : 0.5 * (l.length - 1).toFloat - k.toFloat = 0.5 := by
    rw [hlower, Int.fract_natCast_add, Int.fract_eq_self.2 (by norm_num)] at hfract
    exact hfract.eq hasValue_half (by norm_num)
  have hleft := List.getElem?_eq_getElem (l := l) (i := k) (by omega)
  have hright := List.getElem?_eq_getElem (l := l) (i := k + 1) (by omega)
  refine ⟨_, _, hleft, hright, ?_⟩
  rw [median_eq (by omega)]
  simp only [hlower, hupper, hweight, one_sub_half, hleft, hright,
    if_neg (Nat.succ_ne_self k).symm]
  rfl

end

/-! ### Summaries -/

/-- The order statistics in a summary are those of the given values in ascending order. -/
structure Summary.IsOrdered (m : Summary) (sorted : List Float) : Prop where
  count : m.count = sorted.length
  min : m.min ∈ sorted ∧ ∀ v ∈ sorted, totalLE m.min v = true
  max : m.max ∈ sorted ∧ ∀ v ∈ sorted, totalLE v m.max = true
  /-- Of `2k + 1` values the median is the one with `k` values before it. -/
  median_odd : ∀ k, sorted.length = 2 * k + 1 → sorted[k]? = some m.median
  /-- Of `2k + 2` values the median is the sum of the halves of the two in the middle. -/
  median_even : ∀ k, sorted.length = 2 * k + 2 → ∃ a b, sorted[k]? = some a ∧
    sorted[k + 1]? = some b ∧ m.median = a * 0.5 + b * 0.5

namespace Sample

/-- What a summary reads off the values in ascending order. -/
theorem summary_sorted {s : Sample} {m : Summary} (h : Summary.of s = .ok m) :
    m.count = s.sorted.length ∧ s.sorted.head? = some m.min ∧ s.sorted.getLast? = some m.max ∧
      percentile? s.sorted 50 = some m.median := by
  rw [Summary.of] at h
  cases hmean : s.mean with
  | error e =>
    rw [hmean] at h
    cases h
  | ok mean =>
    cases hhead : s.sorted.head? with
    | none =>
      simp only [hmean, hhead] at h
      cases h
    | some min =>
      cases hlast : s.sorted.getLast? with
      | none =>
        simp only [hmean, hhead, hlast] at h
        cases h
      | some max =>
        cases hmedian : percentile? s.sorted 50 with
        | none =>
          simp only [hmean, hhead, hlast, hmedian] at h
          cases h
        | some median =>
          simp only [hmean, hhead, hlast, hmedian] at h
          obtain rfl := Except.ok.inj h
          exact ⟨(length_sorted s).symm, rfl, rfl, rfl⟩

theorem isOrdered_of_summary {s : Sample} {m : Summary} (h : Summary.of s = .ok m)
    (hsize : s.values.length < 2 ^ 52) : m.IsOrdered s.sorted := by
  obtain ⟨hcount, hmin, hmax, hmedian⟩ := summary_sorted h
  have hlength : s.sorted.length < 2 ^ 52 := by rwa [length_sorted]
  refine ⟨hcount, totalLE_head (pairwise_sorted s) hmin, totalLE_getLast (pairwise_sorted s) hmax,
    fun k hk => ?_, fun k hk => ?_⟩
  · rw [← Campaign.median_odd hk hlength, hmedian]
  · obtain ⟨a, b, ha, hb, heven⟩ := Campaign.median_even hk hlength
    exact ⟨a, b, ha, hb, Option.some.inj (hmedian.symm.trans heven)⟩

/-- **The order statistics of a sample.** A usable sample has a summary. Its least and greatest
value and its median are those of the values in ascending order, and a sample with the same values
in another order has the same ones, in every bit. -/
theorem summary_order {s : Sample} (hne : s.values ≠ [])
    (hfin : ∀ v ∈ s.values, v.isFinite = true) (hsize : s.values.length < 2 ^ 52) :
    ∃ m sorted, Summary.of s = .ok m ∧ sorted.Perm s.values ∧ sorted.Pairwise (totalLE · ·) ∧
      m.IsOrdered sorted ∧
      ∀ t : Sample, t.values.Perm s.values → ∃ m', Summary.of t = .ok m' ∧ m'.count = m.count ∧
        m'.min = m.min ∧ m'.max = m.max ∧ m'.median = m.median := by
  obtain ⟨m, hm, -⟩ := exists_summary ((validate_eq_ok_iff s).2 ⟨hne, hfin⟩)
  refine ⟨m, s.sorted, hm, sorted_perm s, pairwise_sorted s, isOrdered_of_summary hm hsize, ?_⟩
  intro t ht
  have hnet : t.values ≠ [] := fun h => hne (List.perm_nil.1 (h ▸ ht.symm))
  obtain ⟨m', hm', -⟩ := exists_summary ((validate_eq_ok_iff t).2
    ⟨hnet, fun v hv => hfin v (ht.mem_iff.1 hv)⟩)
  obtain ⟨hcount, hmin, hmax, hmedian⟩ := summary_sorted hm
  obtain ⟨hcount', hmin', hmax', hmedian'⟩ := summary_sorted hm'
  rw [sorted_congr ht] at hcount' hmin' hmax' hmedian'
  exact ⟨m', hm', hcount'.trans hcount.symm, Option.some.inj (hmin'.symm.trans hmin),
    Option.some.inj (hmax'.symm.trans hmax), Option.some.inj (hmedian'.symm.trans hmedian)⟩

/-- Zeros of both signs, and a number of which the half is rounded to zero. -/
def zeros : Sample := ⟨"zeros", [3, 0.0, -0.0, 5e-324]⟩

theorem summary_order_of_zeros :
    zeros.values ≠ [] ∧ (∀ v ∈ zeros.values, v.isFinite = true) ∧ zeros.values.length < 2 ^ 52 ∧
      [-0.0, 5e-324, 3, 0.0].Perm zeros.values ∧
      ∃ m m', Summary.of zeros = .ok m ∧ Summary.of ⟨"again", [-0.0, 5e-324, 3, 0.0]⟩ = .ok m' ∧
        m.count = 4 ∧ m.min = -0.0 ∧ m.max = 3 ∧ m.median = 0 ∧
        m'.count = 4 ∧ m'.min = -0.0 ∧ m'.max = 3 ∧ m'.median = 0 := by
  have hne : zeros.values ≠ [] := List.cons_ne_nil _ _
  have hfin : ∀ v ∈ zeros.values, v.isFinite = true := by decide +kernel
  have hsize : zeros.values.length < 2 ^ 52 := by decide
  have hagain : [-0.0, 5e-324, 3, 0.0].Perm zeros.values := by decide +kernel
  have hperm : [-0.0, 0.0, 5e-324, 3].Perm zeros.values := by decide +kernel
  have hascending : [-0.0, 0.0, 5e-324, 3].Pairwise (totalLE · ·) := by decide +kernel
  obtain ⟨m, sorted, hm, hsorted, hpairwise, hordered, hsame⟩ := summary_order hne hfin hsize
  obtain ⟨m', hm', hcount', hmin', hmax', hmedian'⟩ := hsame ⟨"again", _⟩ hagain
  obtain rfl := eq_of_ascending (hsorted.trans hperm.symm) hpairwise hascending
  have hmin : m.min = -0.0 := totalLE_antisymm (hordered.min.2 (-0.0) (by simp))
    ((totalLE_head hascending rfl).2 m.min hordered.min.1)
  have hmax : m.max = 3 := totalLE_antisymm
    ((totalLE_getLast hascending rfl).2 m.max hordered.max.1) (hordered.max.2 3 (by simp))
  have hmedian : m.median = 0 := by
    obtain ⟨a, b, ha, hb, hmedian⟩ := hordered.median_even 1 rfl
    obtain rfl := Option.some.inj ha
    obtain rfl := Option.some.inj hb
    rw [hmedian]
    decide +kernel
  exact ⟨hne, hfin, hsize, hagain, m, m', hm, hm', hordered.count, hmin, hmax, hmedian,
    hcount'.trans hordered.count, hmin'.trans hmin, hmax'.trans hmax, hmedian'.trans hmedian⟩

end Sample

end Campaign
