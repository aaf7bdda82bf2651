import Campaign.Proofs.Json.Value
import Campaign.Proofs.Traversal

/-!
# What values stand for after they are read

A value `Encodes` a thing for a decoder if it reads back and the decoder gets the thing from it. A
record has each of its fields under a name of its own, so its decoder finds all of them; a field
that is not written is not found.

## Main statements

* `encodes_string`, `encodes_bool`, `encodes_float`, `encodes_nat`, `encodes_choice`: plain values;
* `encodes_list`: arrays;
* `fields?_record`, `encodes_record`: records.
-/

namespace Campaign.Json

section

variable {α : Type}

/-- A value that reads back and stands for a thing. -/
structure Encodes (v : Json) (decode : Json → Option α) (a : α) : Prop where
  readsBack : ReadsBack v
  decodes : decode v = some a

/-! ### Plain values -/

theorem encodes_string (s : String) : Encodes (ofString s) string? s :=
  ⟨readsBack_string s, string?_ofString s⟩

theorem encodes_bool (b : Bool) : Encodes (bool b) bool? b := ⟨readsBack_bool b, rfl⟩

/-- A double that survives printing. -/
theorem encodes_float {x : Float} (h : float? (ofFloat x) = some x) :
    Encodes (ofFloat x) float? x := by
  refine ⟨?_, h⟩
  simp only [float?, ofFloat, Option.bind_eq_bind, Option.bind_eq_some_iff] at h
  obtain ⟨n, hn, -⟩ := h
  exact readsBack_number hn

theorem encodes_nat {n max : ℕ} (h : n ≤ max) : Encodes (ofNat n) (nat? max) n := by
  have htext := Number.ofText?_toDigits n
  refine ⟨readsBack_number htext, ?_⟩
  simp [nat?, ofNat, htext, Number.nat?, Decimal.ofDigits_toDigits, h]

/-- A choice is written as its name. -/
theorem encodes_choice {ofName? : String → Option α} {name : String} {a : α}
    (h : ofName? name = some a) : Encodes (ofString name) (choice? ofName?) a := by
  refine ⟨readsBack_string name, ?_⟩
  have hchoice : choice? ofName? (ofString name) = (string? (ofString name)).bind ofName? := rfl
  rw [hchoice, string?_ofString, Option.bind_some, h]

/-! ### Arrays -/

theorem encodes_list {write : α → Json} {decode : Json → Option α} {xs : List α}
    (h : ∀ x ∈ xs, Encodes (write x) decode x) :
    Encodes (array (xs.map write)) (list? decode) xs := by
  refine ⟨readsBack_array (List.forall_mem_map.2 fun x hx => (h x hx).readsBack), ?_⟩
  rw [list?]
  exact mapM_map_eq_some fun x hx => (h x hx).decodes

/-! ### Records -/

/-- **The fields of a record.** All of them are found, and nothing else. -/
theorem fields?_record {names : List String} {fs : Fields} (nodup : (fs.map (·.1)).Nodup)
    (known : ∀ f ∈ fs, f.1 ∈ names) : fields? names (record fs) = some fs := by
  change membersAmong? names (fs.map member) = some fs
  induction fs with
  | nil => rfl
  | cons f fs ih =>
    obtain ⟨hnew, nodup⟩ := List.nodup_cons.1 nodup
    have hname : string? (string (escape f.1.toList)) = some f.1 := string?_ofString f.1
    have hlookup : fs.lookup f.1 = none := by
      rw [List.lookup_eq_none_iff]
      intro g hg
      have hne : f.1 ≠ g.1 := fun e => hnew (List.mem_map.2 ⟨g, hg, e.symm⟩)
      simp [hne]
    rw [List.map_cons, membersAmong?, hname,
      ih nodup fun g hg => known g (List.mem_cons_of_mem f hg)]
    simp [known f List.mem_cons_self, hlookup]

/-- A decoder of records gets the fields that were written. -/
theorem encodes_record (names : List String) {fs : Fields} (nodup : (fs.map (·.1)).Nodup)
    (known : ∀ f ∈ fs, f.1 ∈ names) (parts : ∀ f ∈ fs, ReadsBack f.2) {decode : Json → Option α}
    {a : α} (h : fields? names (record fs) = some fs → decode (record fs) = some a) :
    Encodes (record fs) decode a :=
  ⟨readsBack_record parts, h (fields?_record nodup known)⟩

end

end Campaign.Json
