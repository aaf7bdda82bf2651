import Campaign.Json.Reader

/-!
# What JSON values stand for

* `Json.ofFloat`, `Json.ofNat`: the values that write numbers;
* `Json.string?`, `Json.float?`, `Json.nat?`, `Json.bool?`, `Json.list?`: plain values;
* `Json.choice?`: one of several names;
* `Json.fields?`, `Fields.required?`, `Fields.optional?`: a record, written as an object or as an
  array of the fields in order.

Members of an object that are not fields are skipped. A field that is written twice is refused.

## Main statements

* `string?_ofString`: the value that writes a text is read as that text.
-/

namespace Campaign.Json

/-- The text that a value writes. -/
def string? : Json → Option String
  | string escaped => (unescape? escaped).map String.ofList
  | _ => none

theorem string?_ofString (s : String) : string? (ofString s) = some s := by
  simp [string?, ofString, unescape?_escape]

/-- The value that writes a double. -/
def ofFloat (x : Float) : Json := number (Number.style.render x).toList

/-- The double that a value writes. -/
def float? : Json → Option Float
  | number literal => do (← Number.ofText? literal).float?
  | _ => none

/-- The value that writes a natural number. -/
def ofNat (n : Nat) : Json := number (Nat.toDigits 10 n)

/-- The natural number up to a greatest one that a value writes. -/
def nat? (max : Nat) : Json → Option Nat
  | number literal => do
    let n ← (← Number.ofText? literal).nat?
    guard (n ≤ max)
    return n
  | _ => none

/-- The truth value that a value writes. -/
def bool? : Json → Option Bool
  | bool b => some b
  | _ => none

/-- The items of an array, each read alike. -/
def list? {α : Type} (item : Json → Option α) : Json → Option (List α)
  | array items => items.mapM item
  | _ => none

/-- The choice with a name. The name stands as a text, or as the only name of an object, with
nothing for its value. -/
def choice? {α : Type} (ofName? : String → Option α) : Json → Option α
  | object [(name, null)] => do ofName? (← string? (string name))
  | v => do ofName? (← string? v)

/-! ### Records -/

/-- The fields of a record by name. -/
abbrev Fields := List (String × Json)

/-- The fields among the members of an object; all names have to be texts. -/
def membersAmong? (names : List String) : List (List Char × Json) → Option Fields
  | [] => some []
  | (name, v) :: ms => do
    let name ← string? (string name)
    let fields ← membersAmong? names ms
    if name ∉ names then return fields
    guard (fields.lookup name).isNone
    return (name, v) :: fields

/-- The fields of a record with the given names. -/
def fields? (names : List String) : Json → Option Fields
  | object members => membersAmong? names members
  | array items => if items.length ≤ names.length then some (names.zip items) else none
  | _ => none

/-- A field that has to be there. -/
def Fields.required? {α : Type} (fields : Fields) (name : String) (read : Json → Option α) :
    Option α := do
  read (← fields.lookup name)

/-- A field with a default. -/
def Fields.optional? {α : Type} (fields : Fields) (name : String) (read : Json → Option α)
    (default : α) : Option α :=
  match fields.lookup name with
  | some v => read v
  | none => some default

end Campaign.Json
