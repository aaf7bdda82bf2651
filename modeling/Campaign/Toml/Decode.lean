import Campaign.Toml.Basic

/-!
# What TOML values stand for

* `Toml.string?`, `Toml.float?`, `Toml.nat?`, `Toml.bool?`, `Toml.list?`: plain values;
* `Toml.choice?`: one of several names;
* `Toml.fields?`, `Table.required?`, `Table.optional?`: a record, written as a table or as an array
  of the fields in order.

Keys that are no fields are skipped.
-/

namespace Campaign.Toml

/-- The text of a value. -/
def string? : Toml → Option String
  | .string s => some s
  | _ => none

/-- The double of a value; an integer stands for the nearest one. -/
def float? : Toml → Option Float
  | .float x => some x
  | .integer n => some (if n < 0 then -n.natAbs.toFloat else n.natAbs.toFloat)
  | _ => none

/-- The natural number of a value, up to a greatest one. -/
def nat? (max : Nat) : Toml → Option Nat
  | .integer n => if 0 ≤ n ∧ n ≤ max then some n.toNat else none
  | _ => none

/-- The truth value of a value. -/
def bool? : Toml → Option Bool
  | .bool b => some b
  | _ => none

/-- The items of an array, each read alike. -/
def list? {α : Type} (item : Toml → Option α) : Toml → Option (List α)
  | .array items => items.mapM item
  | _ => none

/-- Whether a value is a table without entries. -/
def isEmptyTable : Toml → Bool
  | .table [] => true
  | _ => false

/-- Whether a value is an array without items. -/
def isEmptyArray : Toml → Bool
  | .array [] => true
  | _ => false

/-- The choice with a name. The name stands as a text, or as the only key of a table, with nothing
for its value. -/
def choice? {α : Type} (ofName? : String → Option α) (isNothing : Toml → Bool) : Toml → Option α
  | .string name => ofName? name
  | .table [(name, v)] => if isNothing v then ofName? name else none
  | _ => none

/-! ### Records -/

/-- The entries of a table. -/
def table? : Toml → Option Table
  | .table entries => some entries
  | _ => none

/-- The fields of a record with the given names; an array may hold more items than there are
names. -/
def fields? (names : List String) : Toml → Option Table
  | .table entries => some entries
  | .array items => some (names.zip items)
  | _ => none

/-- A field that has to be there. -/
def Table.required? {α : Type} (fields : Table) (name : String) (read : Toml → Option α) :
    Option α := do
  read (← fields.lookup name)

/-- A field with a default. -/
def Table.optional? {α : Type} (fields : Table) (name : String) (read : Toml → Option α)
    (default : α) : Option α :=
  match fields.lookup name with
  | some v => read v
  | none => some default

end Campaign.Toml
