import Campaign.Csv.Basic

/-!
# Reading comma-separated tables

* `Csv.read?`: the records of a text, or nothing if a quoted field is not closed, or goes on after
  its closing quote, or a quote stands in a bare field.

Tables differ in what ends a record: a line feed alone, or a carriage return as well.

## Main statements

* `readAll?_append`: a text is read in pieces.
* `readAll?_doubleQuotes`: between quotes every text is read back from its written form.
-/

namespace Campaign.Csv

/-- What ends a record outside quotes. -/
inductive RecordEnd where
  /-- A line feed. -/
  | lineFeed
  /-- A line feed, a carriage return, or both in the order return, feed. -/
  | anyBreak
  deriving DecidableEq, Repr

/-- Where in a field reading stands. -/
inductive Place where
  /-- At its first character. -/
  | start
  /-- At the first character of a record, after a carriage return. -/
  | afterReturn
  /-- In a field without quotes. -/
  | bare
  /-- Between the quotes. -/
  | quoted
  /-- After a quote that closes the field or is the first of two. -/
  | closed
  deriving DecidableEq, Repr

/-- A text that has been read in part. -/
structure Reading where
  place : Place := .start
  /-- The characters of the field so far, the last one first. -/
  field : List Char := []
  /-- The fields of the record so far, the last one first. -/
  fields : List String := []
  /-- The records so far, the last one first. -/
  records : List (List String) := []
  deriving DecidableEq, Repr

namespace Reading

/-- The field goes on. -/
def push (r : Reading) (place : Place) (c : Char) : Reading :=
  { r with place, field := c :: r.field }

/-- The field ends. -/
def endField (r : Reading) : Reading :=
  { r with place := .start, field := [], fields := String.ofList r.field.reverse :: r.fields }

/-- The record ends. -/
def endRecord (r : Reading) (place : Place) : Reading :=
  { place, field := [], fields := [],
    records := (String.ofList r.field.reverse :: r.fields).reverse :: r.records }

/-- Whether nothing of a record has been read. -/
def atRecord (r : Reading) : Bool :=
  (r.place = .start || r.place = .afterReturn) && r.fields.isEmpty

/-- Reads a quote that stands outside quotes. -/
def quote? (r : Reading) : Option Reading :=
  match r.place with
  | .closed => some (r.push .quoted '"')
  | .bare => none
  | _ => some { r with place := .quoted }

/-- Reads a character. -/
def step? (ends : RecordEnd) (r : Reading) (c : Char) : Option Reading :=
  if r.place = .quoted then
    some (if c = '"' then { r with place := .closed } else r.push .quoted c)
  else if c = ',' then some r.endField
  else if c = '\n' then
    some (if r.place = .afterReturn then { r with place := .start } else r.endRecord .start)
  else if c = '\r' ∧ ends = .anyBreak then some (r.endRecord .afterReturn)
  else if c = '"' then r.quote?
  else if r.place = .closed then none
  else some (r.push .bare c)

/-- Reads a text. -/
def readAll? (ends : RecordEnd) (r : Reading) (s : List Char) : Option Reading :=
  s.foldlM (step? ends) r

/-- The records that have been read when the text ends. -/
def finish? (r : Reading) : Option (List (List String)) :=
  if r.place = .quoted then none
  else if r.atRecord then some r.records.reverse
  else some (r.endRecord .start).records.reverse

end Reading

/-- The records of a text. -/
def read? (ends : RecordEnd) (text : String) : Option (List (List String)) := do
  (← Reading.readAll? ends {} text.toList).finish?

/-! ### Reading what is written -/

namespace Reading

variable (ends : RecordEnd) (r : Reading)

theorem readAll?_append (s t : List Char) :
    readAll? ends r (s ++ t) = (readAll? ends r s).bind fun r => readAll? ends r t := by
  simp only [readAll?, List.foldlM_append]; rfl

theorem readAll?_cons (c : Char) (s : List Char) :
    readAll? ends r (c :: s) = (step? ends r c).bind fun r => readAll? ends r s := rfl

theorem readAll?_doubleQuotes (s : List Char) (h : r.place = .quoted) :
    readAll? ends r (doubleQuotes s) = some { r with field := s.reverse ++ r.field } := by
  induction s generalizing r with
  | nil => rfl
  | cons c s ih =>
    by_cases hc : c = '"'
    · have closes : step? ends r '"' = some { r with place := .closed } := by simp [step?, h]
      have goes_on : step? ends { r with place := .closed } '"' =
          some (r.push .quoted '"') := by simp [step?, quote?, push]
      rw [doubleQuotes, if_pos hc, readAll?_cons, closes, Option.bind_some, readAll?_cons,
        goes_on, Option.bind_some, ih _ rfl]
      simp [push, h, hc]
    · have goes_on : step? ends r c = some (r.push .quoted c) := by simp [step?, h, hc]
      rw [doubleQuotes, if_neg hc, readAll?_cons, goes_on, Option.bind_some, ih _ rfl]
      simp [push, h]

end Reading

end Campaign.Csv
