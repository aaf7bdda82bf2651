import Campaign.Proofs.Toml.Document
import Campaign.Proofs.Traversal
import Campaign.Toml.Decode

/-!
# Records read back

A value `Encodes` a thing for a decoder if it can be written and the decoder gets the thing from
what is read of it. A record is a table of such values under different keys: its decoder looks each
of them up, so the order in which they are read does not matter.

## Main statements

* `encodes_string`, `encodes_float`, `encodes_nat`, `encodes_choice`: plain values;
* `encodes_list`, `encodes_rows`: arrays of values and of tables, of no items too;
* `encodes_table`: records.
-/

namespace Campaign.Toml

section

variable {α : Type} {n : Nat}

/-- A value that stands for a thing, also after it is written and read. -/
structure Encodes (n : Nat) (v : Toml) (decode : Toml → Option α) (a : α) : Prop where
  writable : Writable n v
  decodes : decode (reread v) = some a

/-! ### Plain values -/

theorem encodes_plain {v : Toml} (hv : isPlain v = true) (reads : ReadsBack (maxDepth - 1) v)
    {decode : Toml → Option α} {a : α} (h : decode v = some a) : Encodes n v decode a :=
  ⟨.plain hv reads, by rw [reread_of_isPlain hv, h]⟩

theorem encodes_string (s : String) : Encodes n (.string s) string? s :=
  encodes_plain rfl (readsBack_string _ s) rfl

theorem encodes_bool (b : Bool) : Encodes n (.bool b) bool? b :=
  encodes_plain rfl (readsBack_bool _ b) rfl

theorem encodes_float {x : Float} (h : x.isFinite = true) : Encodes n (.float x) float? x :=
  encodes_plain rfl (readsBack_float _ h) rfl

theorem encodes_nat {m max : Nat} (h : m ≤ max) (hm : (m : Int) ≤ Number.greatest) :
    Encodes n (.integer m) (nat? max) m := by
  refine encodes_plain rfl (readsBack_integer _ hm) ?_
  rw [nat?, if_pos ⟨Int.natCast_nonneg m, Int.ofNat_le.2 h⟩, Int.toNat_natCast]

/-- A choice is written as its name. -/
theorem encodes_choice {ofName? : String → Option α} {name : String} {a : α}
    (h : ofName? name = some a) (isNothing : Toml → Bool) :
    Encodes n (.string name) (choice? ofName? isNothing) a :=
  encodes_plain rfl (readsBack_string _ name) h

/-! ### Arrays -/

/-- An array of values that are no tables. -/
theorem encodes_list {write : α → Toml} {decode : Toml → Option α} {xs : List α}
    (hv : ∀ x ∈ xs, isTable (write x) = false)
    (h : ∀ x ∈ xs, ReadsBack (maxDepth - 2) (write x) ∧ decode (write x) = some x) :
    Encodes n (.array (xs.map write)) (list? decode) xs := by
  have plain : isPlain (.array (xs.map write)) = true := by
    cases xs with
    | nil => rfl
    | cons x xs => simp [isPlain, isRows, hv x List.mem_cons_self]
  refine encodes_plain plain (@readsBack_array (maxDepth - 2) _ fun v hm => ?_)
    (mapM_map_eq_some fun x hx => (h x hx).2)
  obtain ⟨x, hx, rfl⟩ := List.mem_map.1 hm
  exact (h x hx).1

/-- An array of tables; without any it is written as a value. -/
theorem encodes_rows {write : α → Toml} {decode : Toml → Option α} {xs : List α}
    (hv : ∀ x ∈ xs, isTable (write x) = true) (h : ∀ x ∈ xs, Encodes n (write x) decode x) :
    Encodes n (.array (xs.map write)) (list? decode) xs := by
  have tables : ∀ v ∈ xs.map write, isTable v = true := List.forall_mem_map.2 hv
  refine ⟨?_, ?_⟩
  · cases xs with
    | nil => exact .plain rfl (@readsBack_array (maxDepth - 2) _ (by simp))
    | cons x xs =>
      exact .rows (by simpa [isRows] using tables) (List.forall_mem_map.2 fun y hy =>
        (h y hy).writable)
  · rw [reread_array tables, List.map_map]
    exact mapM_map_eq_some fun x hx => (h x hx).decodes

/-! ### Tables -/

/-- A decoder of records only looks up what stands under a key, and there it finds what is read of
the value that was written under the key. -/
theorem encodes_table {es : Table} (nodup : (es.map (·.1)).Nodup)
    (entries : ∀ e ∈ es, Writable n e.2) {decode : Toml → Option α} {a : α}
    (h : ∀ fields : Table, (∀ key, fields.lookup key = (es.lookup key).map reread) →
      decode (.table fields) = some a) : Encodes (n + 1) (.table es) decode a := by
  refine ⟨.table nodup entries, ?_⟩
  rw [reread_table]
  refine h _ fun key => ?_
  rw [lookup_map, lookup_valuesFirst nodup]

end

end Campaign.Toml
