import Campaign.Toml.Value

/-!
# Reading TOML documents

A document is a list of lines: headers, keys with values, comments, and lines without any of them.

* `Toml.read?`: the table that a whole text writes.
-/

namespace Campaign.Toml

/-- A document that has been read in part. -/
structure Reading where
  /-- The tables so far. -/
  tree : Tree := []
  /-- The keys that lead to the table of the last header. -/
  header : List String := []

/-- What follows the end of a line: blanks, a comment, and a line break or the end of the text. -/
def splitLineEnd? (s : List Char) : Option (List Char) :=
  match dropComment (dropBlanks s) with
  | [] => some []
  | s => splitBreak? s

/-- Reads the header of a table or, where two brackets stand, of a row of an array. -/
def Reading.header? (r : Reading) (s : List Char) : Option (Reading × List Char) :=
  match s with
  | '[' :: s => do
    let (path, key, s) ← splitKeys? s
    match s with
    | ']' :: ']' :: s => return (⟨← r.tree.openRow? path key, path ++ [key]⟩, s)
    | _ => none
  | s => do
    let (path, key, s) ← splitKeys? s
    match s with
    | ']' :: s => return (⟨← r.tree.openTable? path key, path ++ [key]⟩, s)
    | _ => none

/-- Reads a key with its value. -/
def Reading.entry? (r : Reading) (s : List Char) : Option (Reading × List Char) := do
  let (path, key, v, s) ← splitEntry? splitValue? s
  return ({ r with tree := ← r.tree.insertUnder? r.header path key v }, s)

/-- Reads a line. -/
def Reading.line? (r : Reading) (s : List Char) : Option (Reading × List Char) := do
  let (r, s) ← match dropBlanks s with
    | '[' :: s => r.header? s
    | [] => some (r, [])
    | c :: s => if c = '#' ∨ c = '\n' ∨ c = '\r' then some (r, c :: s) else r.entry? (c :: s)
  return (r, ← splitLineEnd? s)

/-- Reads lines to the end of the text. Each line takes a character, so the text itself is enough
fuel. -/
def Reading.linesFor (r : Reading) : List Char → List Char → Option Reading
  | _, [] => some r
  | [], _ => none
  | _ :: fuel, s => do
    let (r, s) ← r.line? s
    r.linesFor fuel s

/-- A text without the mark of its byte order. -/
def dropByteOrderMark : List Char → List Char
  | '\uFEFF' :: s => s
  | s => s

/-- The table that a whole text writes. -/
def read? (text : String) : Option Toml := do
  let s := dropByteOrderMark text.toList
  let r ← Reading.linesFor {} s s
  return r.tree.toToml

end Campaign.Toml
