import Campaign.Toml.Tree
import Mathlib.Data.List.Basic

/-!
# The table of a header

While a document is read, the table of the last header is the last entry of the table around it, and
so on up to the whole document. A `Frame` is one of these tables around it: the entries before the
inner table, its key, which none of them has, and how the inner table came about. `plug` puts a
table into its frames.

A header and a key with a value change the inner table and leave the frames as they are.

## Main statements

* `update?_plug`: a change at the end of the path of the frames changes the inner table;
* `openTable?_plug`, `openRow?_plug`, `growRow?_plug`, `insertUnder?_plug`: the effect of each line.
-/

namespace Campaign.Toml.Tree

/-- The keys of a table. -/
abbrev keys (t : Tree) : List String := t.map (·.1)

theorem alter?_last (f : Option Node → Option Node) {key : String} {t : Tree}
    (h : key ∉ keys t) (node : Node) :
    alter? f key (t ++ [(key, node)]) = (f (some node)).map fun node => t ++ [(key, node)] := by
  induction t with
  | nil => simp [alter?]
  | cons entry t ih =>
    obtain ⟨k, other⟩ := entry
    simp only [keys, List.map_cons, List.mem_cons, not_or] at h
    rw [List.cons_append, alter?, if_neg (Ne.symm h.1), ih h.2]
    cases f (some node) <;> rfl

/-! ### Frames -/

/-- Where a table stands: under a key, or as the last row of an array. -/
inductive Place where
  | table (origin : Origin)
  /-- The rows before the last one, the last of them first. -/
  | row (others : List Tree)

/-- What stands under the key of a table at a place. -/
def Place.node : Place → Tree → Node
  | table origin, t => .table origin t
  | row others, t => .rows (t :: others)

/-- How the table at a place came about; a row has a header of its own. -/
def Place.origin : Place → Origin
  | table origin => origin
  | row _ => .header

/-- A table around another one. -/
structure Frame where
  /-- The entries before the inner table. -/
  before : Tree
  key : String
  place : Place
  fresh : key ∉ keys before

/-- The keys that lead to the inner table. -/
def pathOf (frames : List Frame) : List String := frames.map (·.key)

@[simp] theorem length_pathOf (frames : List Frame) :
    (pathOf frames).length = frames.length := List.length_map ..

/-- A table in its frames, the outermost one first. -/
def plug : List Frame → Tree → Tree
  | [], t => t
  | frame :: frames, t => frame.before ++ [(frame.key, frame.place.node (plug frames t))]

/-- How the inner table came about. -/
def innerOrigin : List Frame → Origin → Origin
  | [], origin => origin
  | frame :: frames, _ => innerOrigin frames frame.place.origin

theorem plug_append (frames others : List Frame) (t : Tree) :
    plug (frames ++ others) t = plug frames (plug others t) := by
  induction frames with
  | nil => rfl
  | cons frame frames ih => simp [plug, ih]

/-- The last entry of the inner table as the new inner table. -/
theorem plug_enter (frames : List Frame) (frame : Frame) (t : Tree) :
    plug (frames ++ [frame]) t = plug frames (frame.before ++ [(frame.key, frame.place.node t)]) :=
  plug_append frames [frame] t

/-- The inner table stands at the end of the path. -/
theorem update?_plug (f : Origin → Tree → Option Tree) (frames : List Frame) (origin : Origin)
    (t : Tree) :
    update? .implied f (pathOf frames) origin (plug frames t) =
      (f (innerOrigin frames origin) t).map (plug frames) := by
  induction frames generalizing origin with
  | nil => simp [pathOf, plug, update?, innerOrigin]
  | cons frame frames ih =>
    obtain ⟨before, key, place, fresh⟩ := frame
    rw [pathOf, List.map_cons, plug, update?, alter?_last _ fresh]
    cases place with
    | table inner =>
      have := ih inner
      simp only [pathOf] at this
      simp [Place.node, this, innerOrigin, Place.origin, Function.comp_def, plug]
    | row others =>
      have := ih .header
      simp only [pathOf] at this
      simp [Place.node, this, innerOrigin, Place.origin, Function.comp_def, plug]

/-! ### Lines -/

variable (frames : List Frame) {key : String} {t : Tree} (h : key ∉ keys t)

include h

theorem openTable?_plug :
    openTable? (pathOf frames) key (plug frames t) =
      some (plug frames (t ++ [(key, .table .header [])])) := by
  rw [openTable?, update?_plug, alter?_absent openNode? key t h]
  rfl

/-- The first row of an array. -/
theorem openRow?_plug :
    openRow? (pathOf frames) key (plug frames t) =
      some (plug frames (t ++ [(key, .rows [[]])])) := by
  rw [openRow?, update?_plug, alter?_absent growNode? key t h]
  rfl

/-- A further row of an array. -/
theorem growRow?_plug (rows : List Tree) :
    openRow? (pathOf frames) key (plug frames (t ++ [(key, .rows rows)])) =
      some (plug frames (t ++ [(key, .rows ([] :: rows))])) := by
  rw [openRow?, update?_plug, alter?_last growNode? h]
  rfl

theorem insertUnder?_plug (v : Toml) :
    insertUnder? (pathOf frames) [] key v (plug frames t) =
      some (plug frames (t ++ [(key, .value v)])) := by
  have insert : insert? [] key v t = some (t ++ [(key, .value v)]) := by
    rw [insert?, update?, if_neg (by simp), alter?_absent (putNode? v) key t h]
    rfl
  rw [insertUnder?, update?_plug, insert]
  rfl

end Campaign.Toml.Tree
