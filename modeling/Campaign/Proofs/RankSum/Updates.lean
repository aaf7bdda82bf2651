import Campaign.RankSum.Gaussian
import Mathlib.Data.List.Infix

/-!
# Filling a table, update by update

The loops that fill a table are written out as the list of their updates, each of which combines a
place with one below it. What holds at every moment of the loops is what holds after each first
part of this list.

* `Update`: one update of a table;
* `multiplication`, `division`: the updates of a multiplication and of a division by `1 - q^s`;
* `updates`: the updates of the first factors of a Gaussian binomial;
* `run`: the table after some updates;
* `Throughout`: a property holds at every moment of a run.

## Main statements

* `run_updates`: the updates fill the table.
* `throughout_append`: runs one after the other.
-/

namespace Campaign.RankSum.Gaussian

/-- How the two numbers are combined. -/
inductive Operation where
  | subtract
  | add

/-- The combined number. -/
def Operation.eval {α : Type} [Add α] [Sub α] : Operation → α → α → α
  | subtract, x, y => x - y
  | add, x, y => x + y

/-- An update of a table: the place `target` takes up the number at `source`. -/
structure Update (size : Nat) where
  operation : Operation
  target : Fin size
  source : Fin size

variable {α : Type} {size : Nat}

namespace Update

/-- The update of the place `s + d` by the one `s` places below. -/
def shifted (operation : Operation) (s d : Nat) (h : s + d < size) : Update size where
  operation := operation
  target := ⟨s + d, h⟩
  source := ⟨d, Nat.lt_of_le_of_lt (Nat.le_add_left d s) h⟩

/-- The number at the target. -/
def own (u : Update size) (row : Vector α size) : α := row[u.target]

/-- The number at the source. -/
def other (u : Update size) (row : Vector α size) : α := row[u.source]

/-- The number that is written. -/
def result [Add α] [Sub α] (u : Update size) (row : Vector α size) : α :=
  u.operation.eval (u.own row) (u.other row)

/-- The table after the update. -/
def apply [Add α] [Sub α] (u : Update size) (row : Vector α size) : Vector α size :=
  row.set u.target (u.result row)

theorem own_map {β : Type} (u : Update size) (f : α → β) (row : Vector α size) :
    u.own (row.map f) = f (u.own row) := Vector.getElem_map f u.target.isLt

theorem other_map {β : Type} (u : Update size) (f : α → β) (row : Vector α size) :
    u.other (row.map f) = f (u.other row) := Vector.getElem_map f u.source.isLt

theorem apply_subtract [Add α] [Sub α] {d s : Nat} (h : s + d < size) (row : Vector α size) :
    (shifted .subtract s d h).apply row = row.set (s + d) (row[s + d] - row[d]) := rfl

theorem apply_add [Add α] [Sub α] {d s : Nat} (h : s + d < size) (row : Vector α size) :
    (shifted .add s d h).apply row = row.set (s + d) (row[s + d] + row[d]) := rfl

end Update

/-! ### The updates of the loops -/

/-- The part of a multiplication by `1 - q^s` from the place below `s + t` down. -/
def descending (s : Nat) : (t : Nat) → t ≤ size - s → List (Update size)
  | 0, _ => []
  | t + 1, h => .shifted .subtract s t (by omega) :: descending s t (by omega)

/-- The part of a division by `1 - q^s` up to the place below `s + t`. -/
def ascending (s : Nat) : (t : Nat) → t ≤ size - s → List (Update size)
  | 0, _ => []
  | t + 1, h => ascending s t (by omega) ++ [.shifted .add s t (by omega)]

/-- The updates of a multiplication by `1 - q^s`. -/
def multiplication (s : Nat) : List (Update size) := descending s (size - s) (Nat.le_refl _)

/-- The updates of a division by `1 - q^s`. -/
def division (s : Nat) : List (Update size) := ascending s (size - s) (Nat.le_refl _)

/-- The updates of the first factors of a Gaussian binomial. -/
def updates (n : Nat) : (factors : Nat) → List (Update size)
  | 0 => []
  | i + 1 => updates n i ++ (multiplication (n + (i + 1)) ++ division (i + 1))

/-- The updates of fewer factors come first. -/
theorem updates_isPrefix (n : Nat) {i m : Nat} (h : i ≤ m) :
    (updates n i : List (Update size)) <+: updates n m := by
  induction h with
  | refl => exact List.prefix_refl _
  | step _ ih => exact ih.trans (List.prefix_append _ _)

/-! ### Runs -/

section

variable [Add α] [Sub α]

/-- The table after some updates. -/
def run (us : List (Update size)) (row : Vector α size) : Vector α size :=
  us.foldl (fun row u => u.apply row) row

theorem run_nil (row : Vector α size) : run [] row = row := rfl

theorem run_cons (u : Update size) (us : List (Update size)) (row : Vector α size) :
    run (u :: us) row = run us (u.apply row) := rfl

theorem run_append (us vs : List (Update size)) (row : Vector α size) :
    run (us ++ vs) row = run vs (run us row) := List.foldl_append

theorem run_descending {t s : Nat} (h : t ≤ size - s) (row : Vector α size) :
    run (descending s t h) row =
      t.foldRev (fun d _ row => row.set (s + d) (row[s + d] - row[d])) row := by
  induction t generalizing row with
  | zero => rfl
  | succ t ih => rw [descending, run_cons, ih, Nat.foldRev_succ, Update.apply_subtract]

theorem run_ascending {t s : Nat} (h : t ≤ size - s) (row : Vector α size) :
    run (ascending s t h) row =
      t.fold (fun d _ row => row.set (s + d) (row[s + d] + row[d])) row := by
  induction t with
  | zero => rfl
  | succ t ih =>
    rw [ascending, run_append, ih, Nat.fold_succ, run_cons, run_nil, Update.apply_add]

theorem run_multiplication (s : Nat) (row : Vector α size) :
    run (multiplication s) row = mulOneSub s row := run_descending _ _

theorem run_division (s : Nat) (row : Vector α size) :
    run (division s) row = divOneSub s row := run_ascending _ _

/-- **The updates fill the table** with the coefficients of a Gaussian binomial. -/
theorem run_updates [OfNat α 0] [OfNat α 1] (m n i : Nat) :
    run (updates n i) (one (m * n + 1)) = partialCoefficients α m n i := by
  induction i with
  | zero => rfl
  | succ i ih =>
    rw [updates, run_append, run_append, ih, run_multiplication, run_division]
    rfl

/-! ### Every moment of a run -/

variable {P Q : Vector α size → Prop} {us vs : List (Update size)} {row : Vector α size}

/-- A property holds before, after and between the updates. -/
def Throughout (P : Vector α size → Prop) (us : List (Update size)) (row : Vector α size) : Prop :=
  ∀ before, before <+: us → P (run before row)

theorem Throughout.mono (h : Throughout P us row) (hPQ : ∀ row, P row → Q row) :
    Throughout Q us row :=
  fun before hbefore => hPQ _ (h before hbefore)

theorem Throughout.of_isPrefix (h : Throughout P us row) (hvs : vs <+: us) : Throughout P vs row :=
  fun before hbefore => h before (hbefore.trans hvs)

theorem throughout_nil : Throughout P [] row ↔ P row := by
  simp only [Throughout, List.prefix_nil, forall_eq, run_nil]

theorem throughout_cons {u : Update size} :
    Throughout P (u :: us) row ↔ P row ∧ Throughout P us (u.apply row) := by
  constructor
  · intro h
    refine ⟨h [] List.nil_prefix, fun before hbefore => ?_⟩
    exact h (u :: before) ((List.prefix_cons_inj u).2 hbefore)
  · rintro ⟨hrow, h⟩ before hbefore
    obtain rfl | ⟨before, rfl, hrest⟩ := List.prefix_cons_iff.1 hbefore
    · exact hrow
    · exact h before hrest

/-- **Runs one after the other.** -/
theorem throughout_append :
    Throughout P (us ++ vs) row ↔ Throughout P us row ∧ Throughout P vs (run us row) := by
  induction us generalizing row with
  | nil =>
    rw [List.nil_append, throughout_nil, run_nil]
    exact ⟨fun h => ⟨h [] List.nil_prefix, h⟩, And.right⟩
  | cons u us ih => rw [List.cons_append, throughout_cons, throughout_cons, ih, run_cons, and_assoc]

end

end Campaign.RankSum.Gaussian
