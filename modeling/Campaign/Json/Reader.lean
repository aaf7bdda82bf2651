import Campaign.Json.Basic
import Campaign.Json.Number

/-!
# Reading JSON

* `Json.read?`: the value that a whole text writes.

A value is read to its end and the rest of the text handed back. Each step down or to the right
takes one unit of fuel; twice the length of the text is enough, because a step that takes no
character is followed by one that does.
-/

namespace Campaign.Json

/-- Whether a character may stand between any two parts of a value. -/
def isBlank (c : Char) : Bool := c = ' ' || c = '\n' || c = '\r' || c = '\t'

/-- A text from its first character that is no blank. -/
def skipBlanks (s : List Char) : List Char := s.dropWhile isBlank

/-- A value without parts: a word or a number. -/
def readAtom? : List Char → Option (Json × List Char)
  | 'n' :: 'u' :: 'l' :: 'l' :: s => some (null, s)
  | 't' :: 'r' :: 'u' :: 'e' :: s => some (bool true, s)
  | 'f' :: 'a' :: 'l' :: 's' :: 'e' :: s => some (bool false, s)
  | s => do
    let (n, rest) ← Number.split? s
    return (number n.text, rest)

mutual

/-- The value at the front of a text. -/
def readValue? : Nat → List Char → Option (Json × List Char)
  | 0, _ => none
  | fuel + 1, s =>
    match skipBlanks s with
    | '"' :: s => do
      let (escaped, s) ← splitQuoted? s
      return (string escaped, s)
    | '[' :: s =>
      match skipBlanks s with
      | ']' :: s => some (array [], s)
      | s => do
        let (items, s) ← readItems? fuel s
        return (array items, s)
    | '{' :: s =>
      match skipBlanks s with
      | '}' :: s => some (object [], s)
      | s => do
        let (members, s) ← readMembers? fuel s
        return (object members, s)
    | s => readAtom? s

/-- The items up to the end of an array, at least one. -/
def readItems? : Nat → List Char → Option (List Json × List Char)
  | 0, _ => none
  | fuel + 1, s => do
    let (v, s) ← readValue? fuel s
    match skipBlanks s with
    | ',' :: s =>
      let (vs, s) ← readItems? fuel s
      return (v :: vs, s)
    | ']' :: s => return ([v], s)
    | _ => none

/-- The members up to the end of an object, at least one. -/
def readMembers? : Nat → List Char → Option (List (List Char × Json) × List Char)
  | 0, _ => none
  | fuel + 1, s =>
    match skipBlanks s with
    | '"' :: s => do
      let (name, s) ← splitQuoted? s
      match skipBlanks s with
      | ':' :: s =>
        let (v, s) ← readValue? fuel s
        match skipBlanks s with
        | ',' :: s =>
          let (ms, s) ← readMembers? fuel s
          return ((name, v) :: ms, s)
        | '}' :: s => return ([(name, v)], s)
        | _ => none
      | _ => none
    | _ => none

end

/-- The value that a whole text writes. -/
def read? (text : String) : Option Json := do
  let s := text.toList
  let (v, rest) ← readValue? (2 * s.length + 2) s
  guard (skipBlanks rest).isEmpty
  return v

end Campaign.Json
