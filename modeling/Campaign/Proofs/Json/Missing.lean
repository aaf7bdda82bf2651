import Campaign.Proofs.Binary64.Scientific
import Campaign.Proofs.Json.Record

/-!
# Numbers that are missing

A double that is not finite is written as the word for nothing, and where the text is read there is
nothing in the place of a number. What is read of a value that was written with such numbers is
`asRead` of it; a decoder that asks for a number there refuses it. A value `Demands` its doubles of
a decoder if the decoder gets something from it only if all of them are finite.

## Main statements

* `ofFloat_eq_null_iff`: the doubles that are written as nothing;
* `read?_render_asRead`: what is read of a value;
* `demands_plain`, `demands_float`, `demands_list`, `demands_record`: values and their doubles.
-/

namespace Campaign.Json

open Binary64

/-! ### The word for nothing -/

/-- The word for nothing. -/
def nullWord : List Char := ['n', 'u', 'l', 'l']

theorem render_of_not_isFinite {x : Float} (h : x.isFinite = false) :
    Number.style.render x = "null" := by
  rw [Decimal.Style.render]
  cases hx : value x with
  | nan => rfl
  | infinite negative => cases negative <;> rfl
  | finite negative m q => simp [isFinite_of_value hx] at h

theorem ofFloat_eq_null_iff {x : Float} : ofFloat x = number nullWord ↔ x.isFinite = false := by
  constructor
  · intro h
    by_contra hfin
    rw [Bool.not_eq_false] at hfin
    obtain ⟨negative, m, q, hx⟩ := exists_value_of_isFinite hfin
    obtain ⟨c, t, hct, hdigit⟩ := Decimal.exists_cons_magnitude Number.style
      (Decimal.shortest m q Number.style.tie)
    have htext : (if negative then ['-'] else []) ++ c :: t = nullWord := by
      rw [← hct]
      simpa [ofFloat, Decimal.Style.render, hx] using h
    cases negative with
    | true => simp [nullWord] at htext
    | false =>
      obtain rfl : c = 'n' := by simpa [nullWord] using congrArg List.head? htext
      simp at hdigit
  · intro h
    rw [ofFloat, render_of_not_isFinite h]
    rfl

/-! ### Values as they are read -/

mutual

/-- A value as it is read: the word for nothing is nothing where it stands for a number. -/
def asRead : Json → Json
  | number literal => if literal = nullWord then null else number literal
  | array items => array (asReadItems items)
  | object members => object (asReadMembers members)
  | null => null
  | bool b => bool b
  | string escaped => string escaped

/-- The items of an array as they are read. -/
def asReadItems : List Json → List Json
  | [] => []
  | v :: vs => asRead v :: asReadItems vs

/-- The members of an object as they are read. -/
def asReadMembers : List (List Char × Json) → List (List Char × Json)
  | [] => []
  | (name, v) :: ms => (name, asRead v) :: asReadMembers ms

end

mutual

/-- The same is printed for what is read. -/
theorem renderAt_asRead (level : ℕ) : ∀ v, renderAt level (asRead v) = renderAt level v
  | number literal => by
    rw [asRead]
    split_ifs with h
    · rw [h]
      rfl
    · rfl
  | array [] => rfl
  | array (v :: vs) => by
    simp only [asRead, asReadItems, renderAt, renderAt_asRead (level + 1) v,
      renderItems_asRead (level + 1) vs]
  | object [] => rfl
  | object ((name, v) :: ms) => by
    simp only [asRead, asReadMembers, renderAt, renderAt_asRead (level + 1) v,
      renderMembers_asRead (level + 1) ms]
  | null => rfl
  | bool _ => rfl
  | string _ => rfl

theorem renderItems_asRead (level : ℕ) :
    ∀ vs, renderItems level (asReadItems vs) = renderItems level vs
  | [] => rfl
  | v :: vs => by
    simp only [asReadItems, renderItems, renderAt_asRead level v, renderItems_asRead level vs]

theorem renderMembers_asRead (level : ℕ) :
    ∀ ms, renderMembers level (asReadMembers ms) = renderMembers level ms
  | [] => rfl
  | (name, v) :: ms => by
    simp only [asReadMembers, renderMembers, renderAt_asRead level v,
      renderMembers_asRead level ms]

end

theorem asRead_array (vs : List Json) : asRead (array vs) = array (vs.map asRead) := by
  have hitems : ∀ vs, asReadItems vs = vs.map asRead := by
    intro vs
    induction vs with
    | nil => rfl
    | cons v vs ih => rw [asReadItems, ih, List.map_cons]
  rw [asRead, hitems]

theorem asRead_record (fs : Fields) :
    asRead (record fs) = record (fs.map fun f => (f.1, asRead f.2)) := by
  have hmembers : ∀ fs : Fields, asReadMembers (fs.map member) =
      (fs.map fun f => (f.1, asRead f.2)).map member := by
    intro fs
    induction fs with
    | nil => rfl
    | cons f fs ih => simp only [List.map_cons, asReadMembers, ih]
  rw [record, asRead]
  exact congrArg object (hmembers fs)

/-- **What is printed for a value is read as `asRead` of it.** -/
theorem read?_render_asRead {v : Json} (h : ReadsBack (asRead v)) :
    read? v.render = some (asRead v) := by
  rw [← read?_render h, render, render, renderAt_asRead]

theorem asRead_ofFloat (x : Float) :
    asRead (ofFloat x) = if x.isFinite then ofFloat x else null := by
  have hword := ofFloat_eq_null_iff (x := x)
  rw [ofFloat, number.injEq] at hword
  rw [ofFloat, asRead]
  simp only [hword]
  cases x.isFinite <;> rfl

/-! ### Doubles that a decoder asks for -/

section

variable {α : Type}

/-- A value that can be read, and from which a decoder gets something only if some doubles are
finite. -/
structure Demands (v : Json) (decode : Json → Option α) (xs : List Float) : Prop where
  readsBack : ReadsBack (asRead v)
  finite : ∀ a, decode (asRead v) = some a → ∀ x ∈ xs, x.isFinite = true

theorem demands_plain {v : Json} (h : ReadsBack v) (hv : asRead v = v) (decode : Json → Option α) :
    Demands v decode [] :=
  ⟨hv.symm ▸ h, fun _ _ _ hx => absurd hx List.not_mem_nil⟩

theorem demands_string (s : String) (decode : Json → Option α) : Demands (ofString s) decode [] :=
  demands_plain (readsBack_string s) rfl decode

theorem demands_bool (b : Bool) (decode : Json → Option α) : Demands (bool b) decode [] :=
  demands_plain (readsBack_bool b) rfl decode

theorem demands_nat (n : ℕ) (decode : Json → Option α) : Demands (ofNat n) decode [] := by
  refine demands_plain (readsBack_number (Number.ofText?_toDigits n)) ?_ decode
  have hword : Nat.toDigits 10 n ≠ nullWord := fun h => by
    have hdigit := Decimal.isDigit_toDigits n 'n' (h ▸ List.mem_cons_self)
    simp at hdigit
  exact if_neg hword

/-- A finite double may be printed in more digits than are read, but it has to be a number. -/
theorem demands_float {x : Float}
    (h : x.isFinite = true → ∃ y, float? (ofFloat x) = some y) :
    Demands (ofFloat x) float? [x] := by
  cases hfin : x.isFinite with
  | false =>
    have hnull : asRead (ofFloat x) = null := by rw [asRead_ofFloat, hfin]; rfl
    refine ⟨hnull ▸ readsBack_null, fun a ha => ?_⟩
    rw [hnull] at ha
    cases ha
  | true =>
    obtain ⟨y, hy⟩ := h hfin
    have hsame : asRead (ofFloat x) = ofFloat x := by rw [asRead_ofFloat, hfin]; rfl
    refine ⟨?_, fun _ _ => by simpa using hfin⟩
    simp only [float?, ofFloat, Option.bind_eq_bind, Option.bind_eq_some_iff] at hy
    obtain ⟨n, hn, -⟩ := hy
    rw [hsame]
    exact readsBack_number hn

theorem exists_of_mapM_eq_some {β : Type} {f : β → Option α} {bs : List β} {as : List α}
    (h : bs.mapM f = some as) : ∀ b ∈ bs, ∃ a, f b = some a := by
  induction bs generalizing as with
  | nil => simp
  | cons b bs ih =>
    simp only [List.mapM_cons, Option.bind_eq_bind, Option.bind_eq_some_iff] at h
    obtain ⟨a, ha, as', has, -⟩ := h
    exact List.forall_mem_cons.2 ⟨⟨a, ha⟩, ih has⟩

theorem demands_list {β : Type} {write : β → Json} {decode : Json → Option α}
    {figures : β → List Float} {bs : List β}
    (h : ∀ b ∈ bs, Demands (write b) decode (figures b)) :
    Demands (array (bs.map write)) (list? decode) (bs.flatMap figures) := by
  constructor
  · rw [asRead_array, List.map_map]
    exact readsBack_array (List.forall_mem_map.2 fun b hb => (h b hb).readsBack)
  · intro as has x hx
    rw [asRead_array, List.map_map, list?] at has
    obtain ⟨b, hb, hx⟩ := List.mem_flatMap.1 hx
    obtain ⟨a, ha⟩ := exists_of_mapM_eq_some has _ (List.mem_map_of_mem hb)
    exact (h b hb).finite a ha x hx

/-- A decoder of records gets the fields that were written. -/
theorem demands_record (names : List String) {fs : Fields} {decode : Json → Option α}
    {xs : List Float} (nodup : (fs.map (·.1)).Nodup) (known : ∀ f ∈ fs, f.1 ∈ names)
    (parts : ∀ f ∈ fs, ReadsBack (asRead f.2))
    (h : ∀ v, fields? names v = some (fs.map fun f => (f.1, asRead f.2)) →
      ∀ a, decode v = some a → ∀ x ∈ xs, x.isFinite = true) :
    Demands (record fs) decode xs := by
  constructor
  · rw [asRead_record]
    refine readsBack_record fun f hf => ?_
    obtain ⟨g, hg, rfl⟩ := List.mem_map.1 hf
    exact parts g hg
  · rw [asRead_record]
    refine h _ (fields?_record ?_ ?_)
    · rwa [List.map_map]
    · exact List.forall_mem_map.2 known

end

end Campaign.Json
