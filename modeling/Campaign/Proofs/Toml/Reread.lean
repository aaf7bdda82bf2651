import Campaign.Toml.Printer
import Campaign.Toml.Tree
import Mathlib.Data.List.Perm.Basic

/-!
# What is read of a written document

The writer puts the plain values of a table in front of the tables and rows inside it, so reading a
document gives its values in another order (`reread`), but each under its own key.

## Main statements

* `reread_table`, `reread_array`: a table with its plain values first, an array as it is;
* `lookup_valuesFirst`: moving the plain values to the front moves no value to another key.
-/

namespace Campaign.Toml

open Campaign.Toml.Tree

/-! ### What is read -/

/-- The entries of a table as they are written: plain values first. -/
def valuesFirst (es : List (String × Toml)) : List (String × Toml) :=
  es.filter (isPlain ·.2) ++ es.filter (!isPlain ·.2)

/-- Whether a plain value stands under a key. -/
def isValue : Node → Bool
  | .value _ => true
  | _ => false

/-- The entries of the table that a node is. -/
def nodeEntries : Node → Tree
  | .table _ entries => entries
  | _ => []

mutual

/-- What reading a written value puts under its key. -/
def readNode : Toml → Node
  | .table es =>
    .table .header ((readEntries es).filter (isValue ·.2) ++ (readEntries es).filter (!isValue ·.2))
  | .array items => if isRows items then .rows (readRows items).reverse else .value (.array items)
  | .string s => .value (.string s)
  | .integer n => .value (.integer n)
  | .float x => .value (.float x)
  | .bool b => .value (.bool b)
  | .time literal => .value (.time literal)

/-- What reading puts under the keys of a table. -/
def readEntries : List (String × Toml) → Tree
  | [] => []
  | (key, v) :: es => (key, readNode v) :: readEntries es

/-- What reading makes of the rows of an array. -/
def readRows : List Toml → List Tree
  | [] => []
  | v :: vs => nodeEntries (readNode v) :: readRows vs

end

/-- A value as it is read after it is written. -/
def reread (v : Toml) : Toml := nodeToml (readNode v)

theorem readEntries_eq_map (es : List (String × Toml)) :
    readEntries es = es.map fun e => (e.1, readNode e.2) := by
  induction es with
  | nil => rfl
  | cons e es ih => rw [readEntries, ih]; rfl

theorem readRows_eq_map (vs : List Toml) :
    readRows vs = vs.map fun v => nodeEntries (readNode v) := by
  induction vs with
  | nil => rfl
  | cons v vs ih => rw [readRows, ih]; rfl

theorem readNode_of_isPlain {v : Toml} (h : isPlain v = true) : readNode v = .value v := by
  cases v with
  | table es => simp [isPlain] at h
  | array items => rw [readNode, if_neg (by simpa [isPlain] using h)]
  | _ => rfl

theorem isValue_readNode (v : Toml) : isValue (readNode v) = isPlain v := by
  cases v with
  | array items => rw [readNode, isPlain]; cases isRows items <;> rfl
  | _ => rfl

theorem readNode_table (es : List (String × Toml)) :
    readNode (.table es) = .table .header ((valuesFirst es).map fun e => (e.1, readNode e.2)) := by
  rw [readNode, readEntries_eq_map, List.filter_map, List.filter_map, ← List.map_append]
  simp only [valuesFirst, Function.comp_def, isValue_readNode]

theorem entriesToml_eq_map (t : Tree) : entriesToml t = t.map fun e => (e.1, nodeToml e.2) := by
  induction t with
  | nil => rfl
  | cons e t ih => rw [entriesToml, ih]; rfl

theorem rowsToml_eq_map (rows : List Tree) :
    rowsToml rows = rows.map fun row => .table (entriesToml row) := by
  induction rows with
  | nil => rfl
  | cons row rows ih => rw [rowsToml, ih]; rfl

theorem reread_table (es : List (String × Toml)) :
    reread (.table es) = .table ((valuesFirst es).map fun e => (e.1, reread e.2)) := by
  rw [reread, readNode_table, nodeToml, entriesToml_eq_map, List.map_map]
  rfl

theorem reread_of_isPlain {v : Toml} (h : isPlain v = true) : reread v = v := by
  rw [reread, readNode_of_isPlain h, nodeToml]

/-- Arrays keep their items in order. -/
theorem reread_array {items : List Toml} (h : ∀ v ∈ items, isTable v = true) :
    reread (.array items) = .array (items.map reread) := by
  cases items with
  | nil => rfl
  | cons v vs =>
    have rows : isRows (v :: vs) = true := by simpa [isRows] using h
    rw [reread, readNode, if_pos rows, nodeToml, readRows_eq_map, rowsToml_eq_map,
      ← List.map_reverse, List.reverse_reverse, List.map_map]
    congr 1
    refine List.map_congr_left fun w hw => ?_
    obtain ⟨es, rfl⟩ : ∃ es, w = .table es := by
      have := h w hw
      cases w <;> simp_all [isTable]
    simp only [Function.comp_apply, reread, readNode, nodeEntries, nodeToml]

/-! ### Values by their keys -/

theorem lookup_of_mem {es : List (String × Toml)} (h : (es.map (·.1)).Nodup) {key : String}
    {v : Toml} (hv : (key, v) ∈ es) : es.lookup key = some v := by
  obtain ⟨before, after, rfl⟩ := List.append_of_mem hv
  refine List.lookup_eq_some_iff.2 ⟨before, after, rfl, fun e he => ?_⟩
  rw [List.map_append, List.map_cons, List.nodup_append] at h
  have ne := h.2.2 e.1 (List.mem_map_of_mem he) key List.mem_cons_self
  simpa using ne.symm

theorem perm_valuesFirst (es : List (String × Toml)) : (valuesFirst es).Perm es :=
  List.filter_append_perm _ es

theorem lookup_valuesFirst {es : List (String × Toml)} (h : (es.map (·.1)).Nodup)
    (key : String) : (valuesFirst es).lookup key = es.lookup key := by
  have perm := perm_valuesFirst es
  cases he : es.lookup key with
  | some v =>
    obtain ⟨before, after, e, -⟩ := List.lookup_eq_some_iff.1 he
    exact lookup_of_mem ((perm.map _).nodup_iff.2 h) (perm.mem_iff.2 (by simp [e]))
  | none =>
    rw [List.lookup_eq_none_iff] at he ⊢
    exact fun e hm => he e (perm.mem_iff.1 hm)

theorem lookup_map (f : Toml → Toml) (es : List (String × Toml)) (key : String) :
    (es.map fun e => (e.1, f e.2)).lookup key = (es.lookup key).map f := by
  induction es with
  | nil => rfl
  | cons e es ih =>
    rw [List.map_cons, List.lookup_cons, List.lookup_cons, ih]
    cases key == e.1 <;> rfl

/-- Neither a plain value nor another one has its key twice, and none has the key of the other
kind. -/
theorem nodup_valuesFirst {es : List (String × Toml)} (h : (es.map (·.1)).Nodup) :
    ((es.filter (isPlain ·.2)).map (·.1)).Nodup ∧ ((es.filter (!isPlain ·.2)).map (·.1)).Nodup ∧
      ∀ e ∈ es.filter (isPlain ·.2), ∀ f ∈ es.filter (!isPlain ·.2), e.1 ≠ f.1 := by
  have split := ((perm_valuesFirst es).map (·.1)).nodup_iff.2 h
  rw [valuesFirst, List.map_append, List.nodup_append] at split
  exact ⟨split.1, split.2.1, fun e he f hf =>
    split.2.2 e.1 (List.mem_map_of_mem he) f.1 (List.mem_map_of_mem hf)⟩

end Campaign.Toml
