import Campaign.Binary64

/-!
# Computations that stop at a fault

The definitions of this library read lists by their shape. A *guarded* computation reads and writes
them by index, takes differences of indexes and clamps to ranges, and stops at once with a `Fault`
where one of these steps has no result. Such a computation `Follows` a plain one if it runs into no
fault and has the same result, be it a value or an error.

* `item`, `put`, `slice`, `difference`, `within`: the steps that can fail;
* `Run`: guarded computations with errors of their own.

## Main statements

* `item_eq_ok`, `put_eq_ok`, `slice_eq_ok`, `difference_eq_ok`: when a step does not fail;
* `Follows.bind`, `Follows.step`, `Follows.mapM`: guarded computations made of steps.
-/

namespace Campaign

/-- What stops a computation at once. -/
inductive Fault where
  /-- An index that is not below the length. -/
  | index (i length : Nat)
  /-- A slice from `first` to before `last` that is not a part of a list. -/
  | slice (first last length : Nat)
  /-- A difference below zero. -/
  | difference (a b : Nat)
  /-- A range without a least element to clamp to. -/
  | range (low high : Float)
  deriving DecidableEq

namespace Guarded

/-! ### Steps that can fail -/

section

variable {α : Type}

/-- The member at an index. -/
def item (xs : List α) (i : Nat) : Except Fault α :=
  if h : i < xs.length then .ok xs[i] else .error (.index i xs.length)

/-- The list with another member at an index. -/
def put (xs : List α) (i : Nat) (a : α) : Except Fault (List α) :=
  if i < xs.length then .ok (xs.set i a) else .error (.index i xs.length)

/-- The members from index `first` to before index `last`. -/
def slice (xs : List α) (first last : Nat) : Except Fault (List α) :=
  if first ≤ last ∧ last ≤ xs.length then .ok ((xs.take last).drop first)
  else .error (.slice first last xs.length)

/-- A difference of indexes. -/
def difference (a b : Nat) : Except Fault Nat :=
  if b ≤ a then .ok (a - b) else .error (.difference a b)

/-- The nearest point of a range. -/
def within (low high x : Float) : Except Fault Float :=
  if low ≤ high then .ok (Binary64.clamp low high x) else .error (.range low high)

variable {xs : List α} {i : Nat}

theorem item_eq_ok {a : α} (h : xs[i]? = some a) : item xs i = .ok a := by
  obtain ⟨hi, rfl⟩ := List.getElem?_eq_some_iff.1 h
  exact dif_pos hi

theorem put_eq_ok (h : i < xs.length) (a : α) : put xs i a = .ok (xs.set i a) := if_pos h

theorem slice_eq_ok {first last : Nat} (h : first ≤ last) (hlast : last ≤ xs.length) :
    slice xs first last = .ok ((xs.take last).drop first) := if_pos ⟨h, hlast⟩

theorem slice_append (xs ys zs : List α) :
    slice (xs ++ (ys ++ zs)) xs.length (xs.length + ys.length) = .ok ys := by
  rw [slice_eq_ok (Nat.le_add_right ..) (by simp), ← List.append_assoc, ← List.length_append,
    List.take_left, List.drop_left]

theorem difference_eq_ok {a b : Nat} (h : b ≤ a) : difference a b = .ok (a - b) := if_pos h

theorem within_unit (x : Float) : within 0 1 x = .ok (Binary64.clamp 0 1 x) :=
  if_pos (by decide +kernel)

theorem mapM_eq_ok {β : Type} {f : α → Except Fault β} {g : α → β} {l : List α}
    (h : ∀ a ∈ l, f a = .ok (g a)) : l.mapM f = .ok (l.map g) := by
  induction l with
  | nil => rfl
  | cons a l ih =>
    rw [List.mapM_cons, h a List.mem_cons_self, ih fun b hb => h b (List.mem_cons_of_mem a hb)]
    rfl

theorem ok_bind {β : Type} (a : α) (f : α → Except Fault β) : (Except.ok a >>= f) = f a := rfl

end

/-! ### Computations with errors -/

/-- A guarded computation with errors of its own. -/
abbrev Run (ε α : Type) := ExceptT ε (Except Fault) α

section

variable {ε α β : Type}

/-- A computation that cannot run into a fault. -/
def ofExcept (e : Except ε α) : Run ε α := ExceptT.mk (.ok e)

/-- A computation that cannot end in an error. -/
def step (x : Except Fault α) : Run ε α := ExceptT.lift x

/-- A guarded computation that runs into no fault and has the result of a plain one. -/
def Follows (m : Run ε α) (e : Except ε α) : Prop := m.run = .ok e

theorem follows_ofExcept (e : Except ε α) : Follows (ofExcept e) e := rfl

theorem follows_pure (a : α) : Follows (pure a : Run ε α) (.ok a) := rfl

theorem follows_throw (e : ε) : Follows (throw e : Run ε α) (.error e) := rfl

theorem Follows.of_eq {m : Run ε α} {e e' : Except ε α} (h : Follows m e) (he : e = e') :
    Follows m e' := he ▸ h

theorem Follows.bind {m : Run ε α} {e : Except ε α} {f : α → Run ε β} {g : α → Except ε β}
    (h : Follows m e) (hf : ∀ a, e = .ok a → Follows (f a) (g a)) :
    Follows (m >>= f) (e >>= g) := by
  have hrun : (m >>= f).run = m.run >>= ExceptT.bindCont f := rfl
  rw [Follows, hrun, h]
  cases e with
  | error e => rfl
  | ok a => exact hf a rfl

theorem Follows.adapt {ε' : Type} {f : ε → ε'} {m : Run ε α} {e : Except ε α} (h : Follows m e) :
    Follows (m.adapt f) (e.mapError f) := by
  rw [Follows] at h ⊢
  change (m.run >>= fun r => pure (r.mapError f)) = _
  rw [h]
  rfl

/-- A step that does not fail. -/
theorem Follows.step {x : Except Fault α} {a : α} {f : α → Run ε β} {e : Except ε β}
    (h : x = .ok a) (hf : Follows (f a) e) : Follows (step x >>= f) e := by
  subst h
  exact hf

theorem Follows.mapM {f : α → Run ε β} {g : α → Except ε β} {l : List α}
    (h : ∀ a ∈ l, Follows (f a) (g a)) : Follows (l.mapM f) (l.mapM g) := by
  induction l with
  | nil => exact follows_pure []
  | cons a l ih =>
    rw [List.mapM_cons, List.mapM_cons]
    refine (h a List.mem_cons_self).bind fun b _ => ?_
    exact (ih fun a' ha' => h a' (List.mem_cons_of_mem a ha')).bind fun bs _ => follows_pure _

end

end Guarded

end Campaign
