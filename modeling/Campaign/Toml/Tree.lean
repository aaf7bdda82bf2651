import Campaign.Toml.Basic

/-!
# Tables under construction

The tables of a document are written in pieces: under headers, by keys with dots, and as rows of
arrays. A tree records for each table how it came about, because that decides what may still be
added to it.

* `Tree.openTable?`, `Tree.openRow?`: the effect of a header;
* `Tree.insert?`: the effect of a key with a value;
* `Tree.toToml`: the finished table.

## Main statements

* `alter?_absent`: a new key goes to the end.
-/

namespace Campaign.Toml

/-- How a table came about. -/
inductive Origin where
  /-- By a header of its own. -/
  | header
  /-- By the header of a table inside it. -/
  | implied
  /-- By a key with dots. -/
  | dotted
  deriving DecidableEq, Repr

/-- What stands under a key. -/
inductive Node where
  | value (v : Toml)
  | table (origin : Origin) (entries : List (String × Node))
  /-- The tables of an array, the last one first. -/
  | rows (tables : List (List (String × Node)))

/-- A table under construction. -/
abbrev Tree := List (String × Node)

namespace Tree

/-- Changes what stands under a key; nothing may stand there before. -/
def alter? (f : Option Node → Option Node) (key : String) : Tree → Option Tree
  | [] => (f none).map fun node => [(key, node)]
  | (k, node) :: entries =>
    if k = key then (f (some node)).map fun node => (k, node) :: entries
    else (alter? f key entries).map ((k, node) :: ·)

theorem alter?_absent (f : Option Node → Option Node) (key : String) (entries : Tree)
    (h : key ∉ entries.map (·.1)) :
    alter? f key entries = (f none).map fun node => entries ++ [(key, node)] := by
  induction entries with
  | nil => simp [alter?]
  | cons entry entries ih =>
    obtain ⟨k, node⟩ := entry
    simp only [List.map_cons, List.mem_cons, not_or] at h
    rw [alter?, if_neg (Ne.symm h.1), ih h.2]
    cases f none <;> rfl

/-- Changes the table at the end of a path, with its origin. Headers create tables as implied and
enter all tables; keys with dots create them as dotted and enter none that has a header. The last
row of an array may be entered by both. -/
def update? (created : Origin) (f : Origin → Tree → Option Tree) :
    List String → Origin → Tree → Option Tree
  | [], origin, entries => f origin entries
  | key :: path, _, entries =>
    alter? (fun node =>
      match node with
      | none => (update? created f path created []).map (Node.table created)
      | some (.table origin inner) =>
        if created = .dotted ∧ origin = .header then none
        else (update? created f path origin inner).map (Node.table origin)
      | some (.rows (row :: rows)) =>
        (update? created f path .header row).map fun row => Node.rows (row :: rows)
      | some _ => none) key entries

/-- A table that gets its header. -/
def openNode? : Option Node → Option Node
  | none => some (.table .header [])
  | some (.table .implied entries) => some (.table .header entries)
  | some _ => none

/-- An array of tables that gets one more. -/
def growNode? : Option Node → Option Node
  | none => some (.rows [[]])
  | some (.rows rows) => some (.rows ([] :: rows))
  | some _ => none

/-- The tree after the header of a table. -/
def openTable? (path : List String) (key : String) (tree : Tree) : Option Tree :=
  update? .implied (fun _ => alter? openNode? key) path .header tree

/-- The tree after the header of a row of an array. -/
def openRow? (path : List String) (key : String) (tree : Tree) : Option Tree :=
  update? .implied (fun _ => alter? growNode? key) path .header tree

/-- A value for a key under which nothing stands yet. -/
def putNode? (v : Toml) : Option Node → Option Node
  | none => some (.value v)
  | some _ => none

/-- A table with one more value under a key with dots; the table before the last part has to come
from dots too. -/
def insert? (path : List String) (key : String) (v : Toml) (tree : Tree) : Option Tree :=
  update? .dotted (fun origin entries =>
    if path ≠ [] ∧ origin ≠ .dotted then none else alter? (putNode? v) key entries)
    path .header tree

/-- The tree with one more value in the table of a header. -/
def insertUnder? (header path : List String) (key : String) (v : Toml) (tree : Tree) :
    Option Tree :=
  update? .implied (fun _ => insert? path key v) header .header tree

/-! ### Finished tables -/

mutual

/-- What stands under a key, finished. -/
def nodeToml : Node → Toml
  | .value v => v
  | .table _ entries => .table (entriesToml entries)
  | .rows rows => .array (rowsToml rows).reverse

/-- The entries of a table, finished. -/
def entriesToml : List (String × Node) → List (String × Toml)
  | [] => []
  | (key, node) :: entries => (key, nodeToml node) :: entriesToml entries

/-- The rows of an array, finished. -/
def rowsToml : List (List (String × Node)) → List Toml
  | [] => []
  | row :: rows => .table (entriesToml row) :: rowsToml rows

end

/-- The finished table. -/
def toToml (tree : Tree) : Toml := .table (entriesToml tree)

end Tree

end Campaign.Toml
