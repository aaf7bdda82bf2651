import Campaign.Toml.Number
import Campaign.Toml.TextReader
import Campaign.Toml.Time
import Campaign.Toml.Tree

/-!
# Reading TOML values

* `splitKeys?`: a key with its dots at the front of a text;
* `splitValue?`: the value at the front of a text.

The values inside a value are at a lower level, so the number of levels bounds the descent.

## Main statements

* `dropBlanks_cons`: blanks end at the first character that is none.
-/

namespace Campaign.Toml

/-! ### Blanks, line breaks and comments -/

/-- Whether a character may stand between two parts of a line. -/
def isBlank (c : Char) : Bool := c = ' ' || c = '\t'

/-- A text from its first character that is no blank. -/
def dropBlanks (s : List Char) : List Char := s.dropWhile isBlank

theorem dropBlanks_cons {c : Char} (s : List Char) (h : isBlank c = false) :
    dropBlanks (c :: s) = c :: s := by
  simp [dropBlanks, h]

/-- What follows a comment, if there is one. -/
def dropComment : List Char → List Char
  | '#' :: s => s.dropWhile isPlainChar
  | s => s

/-- What follows a line break. -/
def splitBreak? : List Char → Option (List Char)
  | '\n' :: s => some s
  | '\r' :: '\n' :: s => some s
  | _ => none

/-- A text from its first character that belongs to no gap between the items of an array: no
blank, no line break, and no comment. -/
def dropGaps (inComment : Bool) : List Char → List Char
  | [] => []
  | '\r' :: '\n' :: s => dropGaps false s
  | c :: s =>
    if c = '\n' then dropGaps false s
    else if inComment then if isPlainChar c then dropGaps true s else c :: s
    else if isBlank c then dropGaps false s
    else if c = '#' then dropGaps true s
    else c :: s

/-! ### Keys -/

/-- Whether a character may stand in a key without quotes. -/
def isBareChar (c : Char) : Bool := c.isAlphanum || c = '_' || c = '-'

/-- One part of a key. -/
def splitKey? (s : List Char) : Option (String × List Char) :=
  let bare := s.takeWhile isBareChar
  if bare.isEmpty then (Text.splitLine? s).map fun (key, rest) => (String.ofList key, rest)
  else some (String.ofList bare, s.dropWhile isBareChar)

/-- The parts of a key, with dots and blanks between them. -/
def splitKeysFor : Nat → List Char → Option (List String × List Char)
  | 0, _ => none
  | fuel + 1, s => do
    let (key, s) ← splitKey? (dropBlanks s)
    match dropBlanks s with
    | '.' :: s =>
      let (keys, s) ← splitKeysFor fuel s
      return (key :: keys, s)
    | s => return ([key], s)

/-- A key takes fewer parts than this, and so many values stand inside one another. -/
def maxDepth : Nat := 80

/-- A key: the parts before the last, the last, and what follows. -/
def splitKeys? (s : List Char) : Option (List String × String × List Char) := do
  let (keys, rest) ← splitKeysFor (maxDepth - 1) s
  return (keys.dropLast, ← keys.getLast?, rest)

/-! ### Items and entries -/

section

variable (value : List Char → Option (Toml × List Char))

/-- The items of an array up to its end, at least one. Each item takes a character, so the text
itself is enough fuel. -/
def splitItemsFor : List Char → List Char → Option (List Toml × List Char)
  | [], _ => none
  | _ :: fuel, s => do
    let (v, s) ← value (dropGaps false s)
    match dropGaps false s with
    | ']' :: s => return ([v], s)
    | ',' :: s =>
      match dropGaps false s with
      | ']' :: s => return ([v], s)
      | s =>
        let (vs, s) ← splitItemsFor fuel s
        return (v :: vs, s)
    | _ => none

/-- The items of an array, after its opening bracket. -/
def splitItems? (s : List Char) : Option (List Toml × List Char) :=
  match dropGaps false s with
  | ']' :: s => some ([], s)
  | s => splitItemsFor value s s

/-- A key and a value, with what follows the value and its blanks. -/
def splitEntry? (s : List Char) : Option (List String × String × Toml × List Char) := do
  let (path, key, s) ← splitKeys? s
  match s with
  | '=' :: s =>
    let (v, s) ← value (dropBlanks s)
    return (path, key, v, dropBlanks s)
  | _ => none

/-- The entries of a table in braces up to its end, at least one, added to those before. Each entry
takes a character, so the text itself is enough fuel. -/
def splitEntriesFor : List Char → Tree → List Char → Option (Tree × List Char)
  | [], _, _ => none
  | _ :: fuel, tree, s => do
    let (path, key, v, s) ← splitEntry? value s
    let tree ← tree.insert? path key v
    match s with
    | '}' :: s => return (tree, s)
    | ',' :: s => splitEntriesFor fuel tree s
    | _ => none

/-- The entries of a table in braces, after its opening brace. -/
def splitEntries? (s : List Char) : Option (Tree × List Char) :=
  match dropBlanks s with
  | '}' :: s => some ([], s)
  | s => splitEntriesFor value s [] s

end

/-! ### Values -/

/-- A value without parts: a text, a word, a time or a number. -/
def splitAtom? : List Char → Option (Toml × List Char)
  | 't' :: 'r' :: 'u' :: 'e' :: s => some (.bool true, s)
  | 'f' :: 'a' :: 'l' :: 's' :: 'e' :: s => some (.bool false, s)
  | s =>
    match Text.split? s with
    | some (text, rest) => some (.string (String.ofList text), rest)
    | none =>
      match Time.split? s with
      | some rest => some (.time (s.take (s.length - rest.length)), rest)
      | none =>
        match Number.splitFloat? s with
        | some (x, rest) => some (.float x, rest)
        | none => (Number.splitInteger? s).map fun (n, rest) => (.integer n, rest)

/-- The value at the front of a text. -/
def splitValueAt (levels : Nat) (s : List Char) : Option (Toml × List Char) :=
  match levels, s with
  | levels + 1, '[' :: s => do
    let (items, s) ← splitItems? (splitValueAt levels) s
    return (.array items, s)
  | levels + 1, '{' :: s => do
    let (tree, s) ← splitEntries? (splitValueAt levels) s
    return (tree.toToml, s)
  | _, s => splitAtom? s

/-- The value at the front of a text. -/
def splitValue? (s : List Char) : Option (Toml × List Char) := splitValueAt (maxDepth - 1) s

end Campaign.Toml
