import Campaign.Toml.Number
import Campaign.Toml.Text
import Campaign.Toml.Value

/-!
# Writing TOML documents

A table is written as a block of lines: its header, then its plain values. The tables inside it and
the rows of its arrays of tables follow as blocks of their own. Empty lines stand between blocks.

* `Toml.writeValue`: a value on one line;
* `Toml.render`: a document as written.
-/

namespace Campaign.Toml

/-- A key as written. -/
def writeKey (key : String) : List Char :=
  let s := key.toList
  if !s.isEmpty && s.all isBareChar then s else Text.enclose ['"'] (Text.escape false 0 s)

/-- Texts with a separator between them. -/
def joined (separator : List Char) : List (List Char) → List Char
  | [] => []
  | [s] => s
  | s :: r => s ++ separator ++ joined separator r

/-! ### Values on one line -/

mutual

/-- A value on one line. -/
def writeValue : Toml → List Char
  | .string s => Text.write s.toList
  | .integer n => (toString n).toList
  | .float x => Number.writeFloat x
  | .bool b => (toString b).toList
  | .time literal => literal
  | .array items => '[' :: joined [',', ' '] (writeItems items) ++ [']']
  | .table entries => '{' :: ' ' :: joined [',', ' '] (writeEntries entries) ++ [' ', '}']

/-- The items of an array. -/
def writeItems : List Toml → List (List Char)
  | [] => []
  | v :: vs => writeValue v :: writeItems vs

/-- The entries of a table. -/
def writeEntries : List (String × Toml) → List (List Char)
  | [] => []
  | (key, v) :: es => (writeKey key ++ [' ', '=', ' '] ++ writeValue v) :: writeEntries es

end

/-! ### Blocks -/

/-- Whether a value is a table. -/
def isTable : Toml → Bool
  | .table _ => true
  | _ => false

/-- Whether the items of an array are written as rows: there are some, and all are tables. -/
def isRows (items : List Toml) : Bool := !items.isEmpty && items.all isTable

/-- Whether a value is written on the line of its key. -/
def isPlain : Toml → Bool
  | .table _ => false
  | .array items => !isRows items
  | _ => true

/-- The lines of the plain values of a table. -/
def plainLines (entries : List (String × Toml)) : List Char :=
  (writeEntries (entries.filter (isPlain ·.2))).flatMap (· ++ ['\n'])

/-- The keys of a header, with dots between them. -/
def writePath (path : List String) : List Char := joined ['.'] (path.map writeKey)

/-- The header of a table. -/
def tableHeader (path : List String) : List Char := '[' :: writePath path ++ [']', '\n']

/-- The header of a row. -/
def rowHeader (path : List String) : List Char := '[' :: '[' :: writePath path ++ [']', ']', '\n']

mutual

/-- The blocks of a table that stands at the end of a path, under its header. -/
def tableBlocks (header : List Char) (path : List String) : Toml → List (List Char)
  | .table entries => (header ++ plainLines entries) :: entryBlocks path entries
  | _ => []

/-- The blocks of the tables and rows among the entries of a table. -/
def entryBlocks (path : List String) : List (String × Toml) → List (List Char)
  | [] => []
  | (key, .array items) :: es =>
    (if isRows items then rowBlocks (path ++ [key]) items else []) ++ entryBlocks path es
  | (key, v) :: es =>
    tableBlocks (tableHeader (path ++ [key])) (path ++ [key]) v ++ entryBlocks path es

/-- The blocks of the rows of an array. -/
def rowBlocks (path : List String) : List Toml → List (List Char)
  | [] => []
  | v :: vs => tableBlocks (rowHeader path) path v ++ rowBlocks path vs

end

/-- A document as written. -/
def render (v : Toml) : String :=
  String.ofList (joined ['\n'] ((tableBlocks [] [] v).filter (!·.isEmpty)))

end Campaign.Toml
