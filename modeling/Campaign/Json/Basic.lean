import Campaign.Json.Text

/-!
# JSON values

A value keeps its numbers and texts as they are written, so reading and writing lose nothing, and
what a number or a text stands for is asked only where it is needed.

* `Json`: a value;
* `Json.ofString`: the value that writes a text;
* `Json.render`: a value as printed over several lines, two blanks for each level.
-/

namespace Campaign

/-- A JSON value. -/
inductive Json where
  | null
  | bool (b : Bool)
  /-- A number as written. -/
  | number (literal : List Char)
  /-- A text as it stands between its quotes. -/
  | string (escaped : List Char)
  | array (items : List Json)
  /-- The names, as they stand between their quotes, and the values. -/
  | object (members : List (List Char × Json))

namespace Json

/-- The value that writes a text. -/
def ofString (s : String) : Json := string (escape s.toList)

/-- The object with the given names and values. -/
def record (fields : List (String × Json)) : Json :=
  object (fields.map fun f => (escape f.1.toList, f.2))

/-! ### Printing -/

/-- A new line with two blanks for each level. -/
def newLine (level : Nat) : List Char := '\n' :: List.replicate (2 * level) ' '

/-- A text in quotes. -/
def quoted (escaped : List Char) : List Char := '"' :: escaped ++ ['"']

mutual

/-- A value as printed at a level. -/
def renderAt (level : Nat) : Json → List Char
  | null => ['n', 'u', 'l', 'l']
  | bool true => ['t', 'r', 'u', 'e']
  | bool false => ['f', 'a', 'l', 's', 'e']
  | number literal => literal
  | string escaped => quoted escaped
  | array [] => ['[', ']']
  | array (v :: vs) =>
    '[' :: newLine (level + 1) ++ renderAt (level + 1) v ++ renderItems (level + 1) vs ++
      newLine level ++ [']']
  | object [] => ['{', '}']
  | object ((name, v) :: ms) =>
    '{' :: newLine (level + 1) ++ quoted name ++ ':' :: ' ' :: renderAt (level + 1) v ++
      renderMembers (level + 1) ms ++ newLine level ++ ['}']

/-- The items after the first. -/
def renderItems (level : Nat) : List Json → List Char
  | [] => []
  | v :: vs => ',' :: newLine level ++ renderAt level v ++ renderItems level vs

/-- The members after the first. -/
def renderMembers (level : Nat) : List (List Char × Json) → List Char
  | [] => []
  | (name, v) :: ms =>
    ',' :: newLine level ++ quoted name ++ ':' :: ' ' :: renderAt level v ++ renderMembers level ms

end

/-- A value as printed. -/
def render (v : Json) : String := String.ofList (renderAt 0 v)

end Json

end Campaign
