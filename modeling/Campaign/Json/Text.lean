import Campaign.Hexadecimal

/-!
# Text in JSON

Between its quotes a text stands escaped.

* `escape`: a text as it is written between quotes;
* `unescape?`: the text that stands between quotes;
* `splitQuoted?`: what stands before a closing quote, and what follows it.

A pair of escapes for the two halves of a surrogate pair is one character; a lone half is none.

## Main statements

* `unescape?_escape`: reading what is written gives the text.
* `splitQuoted?_escape`: a written text ends at the quote that closes it.
-/

namespace Campaign.Json

/-- The characters whose escape is a backslash and a letter. -/
def shortEscapes : List (Char × Char) :=
  [('"', '"'), ('\\', '\\'), ('\x08', 'b'), ('\x0c', 'f'), ('\n', 'n'), ('\r', 'r'), ('\t', 't')]

/-- A character as written. -/
def escapeChar (c : Char) : List Char :=
  match shortEscapes.lookup c with
  | some letter => ['\\', letter]
  | none =>
    if c.toNat < 0x20 then '\\' :: 'u' :: Hexadecimal.digits .lower 4 c.toNat else [c]

/-- A text as written between quotes. -/
def escape (s : List Char) : List Char := s.flatMap escapeChar

/-- The character of an escape by a letter; a slash may be escaped too. -/
def shortEscape? (letter : Char) : Option Char :=
  if letter = '/' then some '/'
  else (shortEscapes.find? (·.2 = letter)).map (·.1)

/-! ### Reading -/

/-- The character that two halves of a surrogate pair stand for. -/
def surrogatePair? (high low : Nat) : Option Char :=
  if 0xD800 ≤ high ∧ high < 0xDC00 ∧ 0xDC00 ≤ low ∧ low < 0xE000 then
    some (Char.ofNat (0x10000 + (high - 0xD800) * 0x400 + (low - 0xDC00)))
  else none

/-- The text that stands escaped between quotes. -/
def unescape? : List Char → Option (List Char)
  | [] => some []
  | '\\' :: 'u' :: a :: b :: c :: d :: s => do
    let unit ← Hexadecimal.read? [a, b, c, d]
    if unit < 0xD800 ∨ 0xE000 ≤ unit then return Char.ofNat unit :: (← unescape? s)
    match s with
    | '\\' :: 'u' :: a :: b :: c :: d :: s =>
      let low ← Hexadecimal.read? [a, b, c, d]
      return (← surrogatePair? unit low) :: (← unescape? s)
    | _ => none
  | '\\' :: letter :: s => do return (← shortEscape? letter) :: (← unescape? s)
  | c :: s => if c = '\\' then none else (unescape? s).map (c :: ·)

/-- Splits a text at its first quote that is not escaped. Control characters and unknown escapes
are refused; whether escapes by number make characters is left open. -/
def splitQuoted? : List Char → Option (List Char × List Char)
  | [] => none
  | '"' :: s => some ([], s)
  | '\\' :: 'u' :: a :: b :: c :: d :: s => do
    let _ ← Hexadecimal.read? [a, b, c, d]
    let (text, rest) ← splitQuoted? s
    return ('\\' :: 'u' :: a :: b :: c :: d :: text, rest)
  | '\\' :: letter :: s => do
    let _ ← shortEscape? letter
    let (text, rest) ← splitQuoted? s
    return ('\\' :: letter :: text, rest)
  | c :: s =>
    if c = '\\' ∨ c.toNat < 0x20 then none
    else do
      let (text, rest) ← splitQuoted? s
      return (c :: text, rest)

/-! ### Reading what is written -/

/-- A character is written as itself, as a letter after a backslash, or as its number. -/
theorem escapeChar_cases (c : Char) :
    (∃ letter, escapeChar c = ['\\', letter] ∧ letter ≠ 'u' ∧ shortEscape? letter = some c) ∨
    (∃ x y z w, escapeChar c = ['\\', 'u', x, y, z, w] ∧
      Hexadecimal.read? [x, y, z, w] = some c.toNat ∧ c.toNat < 0x20) ∨
    (escapeChar c = [c] ∧ c ≠ '\\' ∧ c ≠ '"' ∧ 0x20 ≤ c.toNat) := by
  unfold escapeChar
  by_cases h : c ∈ shortEscapes.map Prod.fst
  · left
    simp only [shortEscapes, List.map_cons, List.map_nil, List.mem_cons, List.not_mem_nil,
      or_false] at h
    rcases h with rfl | rfl | rfl | rfl | rfl | rfl | rfl <;> exact ⟨_, rfl, by decide, by decide⟩
  · right
    have hl : shortEscapes.lookup c = none := by
      simp only [List.lookup_eq_none_iff]
      intro p hp
      have : p.1 ≠ c := fun e => h (e ▸ List.mem_map_of_mem hp)
      simp [Ne.symm this]
    simp only [hl]
    by_cases small : c.toNat < 0x20
    · left
      refine ⟨_, _, _, _, by simp only [small, if_true]; rfl, ?_, small⟩
      have := Hexadecimal.read?_digits .lower 4 c.toNat
      rw [Nat.mod_eq_of_lt (Nat.lt_trans small (by decide))] at this
      exact this
    · right
      refine ⟨by simp [small], ?_, ?_, by omega⟩
      · rintro rfl; simp [shortEscapes] at h
      · rintro rfl; simp [shortEscapes] at h

theorem unescape?_escapeChar (c : Char) (s : List Char) :
    unescape? (escapeChar c ++ s) = (unescape? s).map (c :: ·) := by
  rcases escapeChar_cases c with ⟨letter, h, hu, he⟩ | ⟨x, y, z, w, h, hr, small⟩ | ⟨h, hb, hq, _⟩
  · rw [h]
    simp only [List.cons_append, List.nil_append]
    rw [unescape?.eq_3 _ _ (by intro a b c d s' e; simp_all)]
    simp [he]
    cases unescape? s <;> rfl
  · rw [h]
    simp only [List.cons_append, List.nil_append, unescape?, hr]
    have : c.toNat < 0xD800 := by omega
    simp [this]
    cases unescape? s <;> rfl
  · rw [h]
    simp only [List.cons_append, List.nil_append]
    rw [unescape?.eq_4 _ _ (by simp_all) (by simp_all), if_neg hb]

theorem unescape?_escape (s : List Char) : unescape? (escape s) = some s := by
  induction s with
  | nil => rfl
  | cons c s ih =>
    rw [escape, List.flatMap_cons, unescape?_escapeChar, ← escape, ih]; rfl

theorem splitQuoted?_escape (s rest : List Char) :
    splitQuoted? (escape s ++ '"' :: rest) = some (escape s, rest) := by
  induction s with
  | nil => rfl
  | cons c s ih =>
    simp only [escape, List.flatMap_cons] at ih ⊢
    rcases escapeChar_cases c with ⟨letter, h, hu, he⟩ | ⟨x, y, z, w, h, hr, small⟩ | ⟨h, hb, hq, hc⟩
    · rw [h]
      simp only [List.cons_append, List.nil_append]
      rw [splitQuoted?.eq_4 _ _ (by intro a b c d s' e; simp_all), ih]
      simp only [he]
      rfl
    · rw [h]
      simp only [List.cons_append, List.nil_append, splitQuoted?, hr, ih]
      rfl
    · rw [h]
      simp only [List.cons_append, List.nil_append]
      rw [splitQuoted?.eq_5 _ _ (by simp_all) (by simp_all) (by simp_all),
        if_neg (not_or.2 ⟨hb, Nat.not_lt.2 hc⟩), ih]
      rfl

end Campaign.Json
