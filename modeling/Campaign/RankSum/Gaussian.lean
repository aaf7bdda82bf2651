/-!
# Gaussian binomials

The Gaussian binomial of `m + n` over `m` is the polynomial `∏ (1 - q^(n+i)) / (1 - q^i)`,
`i = 1, …, m`. Its coefficients are computed one factor at a time, on polynomials cut off at degree
`m · n`.

* `Gaussian.coefficients`: the coefficients, over any numbers with addition and subtraction;
* `FloatTable.coefficients`: the coefficients in doubles, in a table that is updated in place.

## Main statements

* `FloatTable.toVector_coefficients`: both are the same computation.
-/

namespace Campaign.RankSum

namespace Gaussian

section

variable {α : Type} [OfNat α 0] [OfNat α 1] [Add α] [Sub α] {size : Nat}

/-- Multiplies a polynomial by `1 - q^s` in place. The highest degree is updated first, so every
step still reads the old coefficient `s` places below. -/
def mulOneSub (s : Nat) (c : Vector α size) : Vector α size :=
  (size - s).foldRev (fun d _ row => row.set (s + d) (row[s + d] - row[d])) c

/-- Divides a polynomial by `1 - q^s` in place. The lowest degree is updated first, so every step
reads the new coefficient `s` places below. -/
def divOneSub (s : Nat) (c : Vector α size) : Vector α size :=
  (size - s).fold (fun d _ row => row.set (s + d) (row[s + d] + row[d])) c

/-- The factor `(1 - q^(n+i)) / (1 - q^i)`. -/
def mulFactor (n i : Nat) (c : Vector α size) : Vector α size :=
  divOneSub i (mulOneSub (n + i) c)

/-- The polynomial `1`. -/
def one (size : Nat) : Vector α size := Vector.ofFn fun k => if k.1 = 0 then 1 else 0

/-- The coefficients of the Gaussian binomial of `m + n` over `m`, after its first `factors`
factors. -/
def partialCoefficients (α : Type) [OfNat α 0] [OfNat α 1] [Add α] [Sub α]
    (m n : Nat) : Nat → Vector α (m * n + 1)
  | 0 => one _
  | i + 1 => mulFactor n (i + 1) (partialCoefficients α m n i)

/-- The coefficients of the Gaussian binomial of `m + n` over `m`. -/
def coefficients (α : Type) [OfNat α 0] [OfNat α 1] [Add α] [Sub α]
    (m n : Nat) : Vector α (m * n + 1) :=
  partialCoefficients α m n m

end

end Gaussian

/-! ### Tables of doubles -/

/-- A table of doubles of a fixed size. -/
structure FloatTable (size : Nat) where
  data : FloatArray
  size_data : data.size = size

namespace FloatTable

variable {size : Nat}

/-- The double at a position. -/
@[inline] def get (t : FloatTable size) (k : Nat) (h : k < size) : Float :=
  t.data.get k (by rw [t.size_data]; exact h)

/-- The table with another double at a position. -/
@[inline] def set (t : FloatTable size) (k : Nat) (x : Float) (h : k < size) : FloatTable size where
  data := t.data.set k x (by rw [t.size_data]; exact h)
  size_data := (Array.size_set _).trans t.size_data

/-- The doubles of a table. -/
def toVector (t : FloatTable size) : Vector Float size := ⟨t.data.data, t.size_data⟩

theorem toVector_set (t : FloatTable size) (k : Nat) (x : Float) (h : k < size) :
    (t.set k x h).toVector = t.toVector.set k x := rfl

theorem get_eq (t : FloatTable size) (k : Nat) (h : k < size) : t.get k h = t.toVector[k] := rfl

/-- A table of zeros but for a one at the first position. -/
def one (size : Nat) : FloatTable size where
  data := ⟨(Gaussian.one size : Vector Float size).toArray⟩
  size_data := by simp [FloatArray.size]

theorem toVector_one : (one size).toVector = Gaussian.one size := rfl

/-- Multiplies by `1 - q^s`. -/
def mulOneSub (s : Nat) (t : FloatTable size) : FloatTable size :=
  (size - s).foldRev
    (fun d _ t => t.set (s + d) (t.get (s + d) (by omega) - t.get d (by omega)) (by omega)) t

/-- Divides by `1 - q^s`. -/
def divOneSub (s : Nat) (t : FloatTable size) : FloatTable size :=
  (size - s).fold
    (fun d _ t => t.set (s + d) (t.get (s + d) (by omega) + t.get d (by omega)) (by omega)) t

/-- The coefficients after the first `factors` factors. -/
def partialCoefficients (m n : Nat) : Nat → FloatTable (m * n + 1)
  | 0 => one _
  | i + 1 => divOneSub (i + 1) (mulOneSub (n + (i + 1)) (partialCoefficients m n i))

/-- The coefficients of the Gaussian binomial of `m + n` over `m`. -/
def coefficients (m n : Nat) : FloatTable (m * n + 1) := partialCoefficients m n m

/-! ### Both computations agree -/

theorem map_foldRev {α β : Type} (g : α → β) {n : Nat} (f : (i : Nat) → i < n → α → α)
    (f' : (i : Nat) → i < n → β → β) (h : ∀ i hi a, g (f i hi a) = f' i hi (g a)) (a : α) :
    g (n.foldRev f a) = n.foldRev f' (g a) := by
  induction n generalizing a with
  | zero => rfl
  | succ n ih => rw [Nat.foldRev_succ, Nat.foldRev_succ, ih _ _ fun i hi => h i (by omega), h]

theorem map_fold {α β : Type} (g : α → β) {n : Nat} (f : (i : Nat) → i < n → α → α)
    (f' : (i : Nat) → i < n → β → β) (h : ∀ i hi a, g (f i hi a) = f' i hi (g a)) (a : α) :
    g (n.fold f a) = n.fold f' (g a) := by
  induction n with
  | zero => rfl
  | succ n ih => rw [Nat.fold_succ, Nat.fold_succ, h, ih _ _ fun i hi => h i (by omega)]

theorem toVector_mulOneSub (s : Nat) (t : FloatTable size) :
    (mulOneSub s t).toVector = Gaussian.mulOneSub s t.toVector :=
  map_foldRev toVector _ _ (fun _ _ t => by rw [toVector_set, get_eq, get_eq]) t

theorem toVector_divOneSub (s : Nat) (t : FloatTable size) :
    (divOneSub s t).toVector = Gaussian.divOneSub s t.toVector :=
  map_fold toVector _ _ (fun _ _ t => by rw [toVector_set, get_eq, get_eq]) t

theorem toVector_partialCoefficients (m n i : Nat) :
    (partialCoefficients m n i).toVector = Gaussian.partialCoefficients Float m n i := by
  induction i with
  | zero => exact toVector_one
  | succ i ih =>
    rw [partialCoefficients, toVector_divOneSub, toVector_mulOneSub, ih]; rfl

theorem toVector_coefficients (m n : Nat) :
    (coefficients m n).toVector = Gaussian.coefficients Float m n :=
  toVector_partialCoefficients m n m

end FloatTable

end Campaign.RankSum
