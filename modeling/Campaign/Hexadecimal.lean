/-!
# Hexadecimal digits

* `Hexadecimal.digits`: the last digits of a number, in letters of either case;
* `Hexadecimal.read?`: the number that digits write, in letters of any case.

## Main statements

* `value?_digit`: a written digit has its value.
* `read?_digits`: reading the last `width` digits of a number gives it modulo the `width`-th power
  of sixteen.
-/

namespace Campaign.Hexadecimal

/-- The case of the letters. -/
inductive Letters where
  | lower
  | upper
  deriving DecidableEq, Repr

/-- The digit of a number below sixteen. -/
def digit (letters : Letters) (n : Nat) : Char :=
  match letters with
  | .lower => n.digitChar
  | .upper => n.digitChar.toUpper

/-- The value of a digit. -/
def value? (c : Char) : Option Nat :=
  if '0' ≤ c ∧ c ≤ '9' then some (c.toNat - '0'.toNat)
  else if 'a' ≤ c ∧ c ≤ 'f' then some (c.toNat - 'a'.toNat + 10)
  else if 'A' ≤ c ∧ c ≤ 'F' then some (c.toNat - 'A'.toNat + 10)
  else none

theorem value?_digit (letters : Letters) {n : Nat} (h : n < 16) :
    value? (digit letters n) = some n := by
  have : ∀ k : Fin 16, value? (digit letters k.1) = some k.1 := by
    cases letters <;> decide
  exact this ⟨n, h⟩

/-- The last `width` digits of a number. -/
def digits (letters : Letters) : Nat → Nat → List Char
  | 0, _ => []
  | width + 1, n => digits letters width (n / 16) ++ [digit letters (n % 16)]

/-- Reads digits after a number that has been read already. -/
def readAfter? : Nat → List Char → Option Nat
  | n, [] => some n
  | n, c :: s => do readAfter? (16 * n + (← value? c)) s

/-- The number that digits write; other characters write none. -/
def read? (s : List Char) : Option Nat := readAfter? 0 s

theorem readAfter?_append (n : Nat) (s t : List Char) :
    readAfter? n (s ++ t) = (readAfter? n s).bind (readAfter? · t) := by
  induction s generalizing n with
  | nil => rfl
  | cons c s ih =>
    simp only [List.cons_append, readAfter?]
    cases value? c <;> simp [ih]

theorem read?_digits (letters : Letters) (width n : Nat) :
    read? (digits letters width n) = some (n % Nat.pow 16 width) := by
  induction width generalizing n with
  | zero => simp [digits, read?, readAfter?, Nat.mod_one]
  | succ width ih =>
    have small : n % 16 < 16 := Nat.mod_lt _ (by decide)
    have read := ih (n / 16)
    simp only [read?] at read ⊢
    simp only [digits, readAfter?_append, read, Option.bind_some, readAfter?,
      value?_digit letters small]
    have parts : n % Nat.pow 16 (width + 1) = n % 16 + 16 * (n / 16 % Nat.pow 16 width) := by
      show n % (Nat.pow 16 width * 16) = _
      rw [Nat.mul_comm, Nat.mod_mul]
    rw [parts, Nat.add_comm]
    rfl

end Campaign.Hexadecimal
