import Campaign.Decimal.Read

/-!
# Dates and times in TOML

Dates and times are recognised and checked, but nothing is computed from them.

* `Time.split?`: what follows a date, a time of day, or a date with a time at the front of a text.
-/

namespace Campaign.Toml.Time

/-- A number of a fixed count of digits in a range, and what follows it. -/
def splitField? (width low high : Nat) (s : List Char) : Option (Nat × List Char) := do
  let digits := s.take width
  guard (digits.length = width ∧ digits.all Char.isDigit)
  let n := Decimal.ofDigits digits
  guard (low ≤ n ∧ n ≤ high)
  return (n, s.drop width)

/-- What follows a mark. -/
def splitMark? (mark : Char) : List Char → Option (List Char)
  | c :: s => if c = mark then some s else none
  | [] => none

/-- Whether a year has a leap day. -/
def isLeap (year : Nat) : Bool := year % 4 = 0 && (year % 100 ≠ 0 || year % 400 = 0)

/-- The days of a month. -/
def daysIn (year month : Nat) : Nat :=
  if month = 2 then if isLeap year then 29 else 28
  else if month ∈ [4, 6, 9, 11] then 30
  else 31

/-- What follows a date. -/
def splitDate? (s : List Char) : Option (List Char) := do
  let (year, s) ← splitField? 4 0 9999 s
  let s ← splitMark? '-' s
  let (month, s) ← splitField? 2 1 12 s
  let s ← splitMark? '-' s
  let (_, s) ← splitField? 2 1 (daysIn year month) s
  return s

/-- What follows a fraction of a second, if there is one. -/
def dropFraction : List Char → List Char
  | '.' :: s => if (s.head?.any Char.isDigit) then s.dropWhile Char.isDigit else '.' :: s
  | s => s

/-- What follows a time of day. -/
def splitClock? (s : List Char) : Option (List Char) := do
  let (_, s) ← splitField? 2 0 23 s
  let s ← splitMark? ':' s
  let (_, s) ← splitField? 2 0 59 s
  let s ← splitMark? ':' s
  let (_, s) ← splitField? 2 0 60 s
  return dropFraction s

/-- What follows a distance from universal time in hours and minutes. -/
def splitDistance? (s : List Char) : Option (List Char) := do
  let (_, s) ← splitField? 2 0 23 s
  let s ← splitMark? ':' s
  let (_, s) ← splitField? 2 0 59 s
  return s

/-- What follows the relation to universal time, if there is one. -/
def dropOffset (s : List Char) : List Char :=
  match s with
  | [] => []
  | c :: r =>
    if c = 'Z' ∨ c = 'z' then r
    else if c = '+' ∨ c = '-' then (splitDistance? r).getD s
    else s

/-- What follows a date or a time of day; a date may be followed by a time. -/
def split? (s : List Char) : Option (List Char) :=
  match splitDate? s with
  | none => splitClock? s
  | some rest =>
    match rest with
    | [] => some []
    | c :: r =>
      if c = 'T' ∨ c = 't' ∨ c = ' ' then some (((splitClock? r).map dropOffset).getD rest)
      else some rest

end Campaign.Toml.Time
