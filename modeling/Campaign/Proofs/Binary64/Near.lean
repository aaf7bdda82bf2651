import Campaign.Proofs.Binary64.LastPlace

/-!
# Doubles near a number

Where a computation rounds, what a double holds is known up to a distance. Adding two doubles adds
their distances and half a unit for the rounding, and a sum of many does so once for each of them.

* `Near`: a double is finite and within a distance of a number.

## Main statements

* `Near.add`: the sum of two doubles.
* `Near.foldl_add`: a running sum.
-/

namespace Campaign.Binary64

/-- The double is finite, and what it holds is within a distance of the number. -/
def Near (x : Float) (a ε : ℝ) : Prop := ∃ t, HasValue x t ∧ |t - a| ≤ ε

section

variable {x y : Float} {a b δ ε : ℝ} {e : ℕ}

theorem HasValue.near (hx : HasValue x a) : Near x a 0 := ⟨a, hx, by rw [sub_self, abs_zero]⟩

theorem Near.mono (hx : Near x a δ) (h : δ ≤ ε) : Near x a ε := by
  obtain ⟨t, ht, hle⟩ := hx
  exact ⟨t, ht, hle.trans h⟩

/-- **The sum of two doubles**, if it is at most `2^53` units. -/
theorem Near.add (hx : Near x a δ) (hy : Near y b ε) (he : e ≤ 970)
    (h : |a + b| + (δ + ε) ≤ 2 ^ (e + 53)) : Near (x + y) (a + b) (δ + ε + 2 ^ e / 2) := by
  obtain ⟨s, hs, hsle⟩ := hx
  obtain ⟨t, ht, htle⟩ := hy
  have hdistance : |s + t - (a + b)| ≤ δ + ε := by
    rw [add_sub_add_comm]
    exact (abs_add_le _ _).trans (add_le_add hsle htle)
  have hlarge : |s + t| ≤ 2 ^ (e + 53) := by
    have := abs_sub_abs_le_abs_sub (s + t) (a + b)
    linarith
  have hround : |nearest (s + t) - (s + t)| ≤ 2 ^ e / 2 := by
    have hunits := abs_nearest_sub_le_half (k := e) (x := s + t) (by omega)
    rw [show (e : ℤ) + 53 = (e + 53 : ℕ) by push_cast; rfl, zpow_natCast, zpow_natCast] at hunits
    exact hunits (hlarge.trans (le_add_of_nonneg_right (by positivity)))
  refine ⟨nearest (s + t), hs.add ht (abs_nearest_lt (by omega) hlarge), ?_⟩
  calc |nearest (s + t) - (a + b)|
      ≤ |nearest (s + t) - (s + t)| + |s + t - (a + b)| := abs_sub_le _ _ _
    _ ≤ δ + ε + 2 ^ e / 2 := by linarith

/-- **A running sum**, if the sizes of all numbers together are at most `2^53` units. -/
theorem Near.foldl_add {β : Type} {f : β → Float} {c : β → ℝ} (l : List β) (he : e ≤ 970)
    (hε : 0 ≤ ε) (hx : Near x a δ) (hf : ∀ b ∈ l, Near (f b) (c b) ε)
    (h : |a| + (l.map fun b => |c b|).sum + (δ + l.length * (ε + 2 ^ e / 2)) ≤ 2 ^ (e + 53)) :
    Near ((l.map f).foldl (· + ·) x) (a + (l.map c).sum)
      (δ + l.length * (ε + 2 ^ e / 2)) := by
  induction l generalizing x a δ with
  | nil => simpa using hx
  | cons b l ih =>
    simp only [List.map_cons, List.sum_cons, List.length_cons, Nat.cast_succ, List.foldl_cons]
      at h ⊢
    have hhalf : (0 : ℝ) < 2 ^ e / 2 := by positivity
    have hrest : 0 ≤ (l.map fun b => |c b|).sum := List.sum_nonneg (by simp)
    have hroom : 0 ≤ (l.length : ℝ) * (ε + 2 ^ e / 2) := by positivity
    have htriangle := abs_add_le a (c b)
    have hsum := hx.add (hf b List.mem_cons_self) he (by linarith)
    have hfold := ih hsum (fun b hb => hf b (List.mem_cons_of_mem _ hb)) (by linarith)
    rw [add_assoc a] at hfold
    exact hfold.mono (by linarith)

end

end Campaign.Binary64
