import Campaign.Proofs.Toml.Number
import Campaign.Proofs.Toml.Text
import Campaign.Toml.Printer
import Campaign.Toml.Value

/-!
# Values and keys read back

A value *reads back* (`ReadsBack`) if its text in front of anything that ends a value is read as the
value, and if no reader of gaps or of the end of an array takes its first character. Arrays inherit
both from their items, one level higher.

A key is written in quotes or without, and reads back from both. A path of keys reads back as long
as it has fewer parts than a key may have.

## Main statements

* `readsBack_array`: an array of values that read back;
* `splitKeys?_writePath`: a path of keys;
* `splitEntry?_writeEntry`: a key with a value.
-/

namespace Campaign.Toml

/-- A character that starts a value: no gap in front of it, and no end of an array. -/
def StartsValue (c : Char) : Prop := c ∉ [' ', '\t', '\n', '\r', '#', ']']

instance : DecidablePred StartsValue := fun c =>
  inferInstanceAs (Decidable (c ∉ [' ', '\t', '\n', '\r', '#', ']']))

/-- A value that is read from its own text, on a level with so many below. -/
structure ReadsBack (levels : Nat) (v : Toml) : Prop where
  starts : ∃ c t, writeValue v = c :: t ∧ StartsValue c
  splits : ∀ s, Ends s → splitValueAt levels (writeValue v ++ s) = some (v, s)

/-! ### Gaps -/

theorem dropBlanks_starts {c : Char} (h : StartsValue c) (s : List Char) :
    dropBlanks (c :: s) = c :: s := by
  simp only [StartsValue, List.mem_cons, not_or] at h
  exact dropBlanks_cons s (by simp [isBlank, h])

theorem dropGaps_starts {c : Char} (h : StartsValue c) (s : List Char) :
    dropGaps false (c :: s) = c :: s := by
  simp only [StartsValue, List.mem_cons, not_or] at h
  rw [dropGaps.eq_3 _ _ _ fun _ e => absurd e h.2.2.2.1]
  simp [isBlank, h]

/-! ### Values without parts -/

theorem splitValueAt_atom (levels : Nat) {c : Char} (ha : c ≠ '[') (ht : c ≠ '{')
    (s : List Char) : splitValueAt levels (c :: s) = splitAtom? (c :: s) := by
  cases levels with
  | zero => rw [splitValueAt.eq_3] <;> simp
  | succ levels => rw [splitValueAt.eq_3] <;> simp [ha, ht]

theorem readsBack_bool (levels : Nat) (b : Bool) : ReadsBack levels (.bool b) := by
  cases b
  · refine ⟨⟨'f', _, rfl, by decide⟩, fun s _ => ?_⟩
    rw [show writeValue (.bool false) ++ s = 'f' :: ('a' :: 'l' :: 's' :: 'e' :: s) from rfl,
      splitValueAt_atom levels (by decide) (by decide)]
    rfl
  · refine ⟨⟨'t', _, rfl, by decide⟩, fun s _ => ?_⟩
    rw [show writeValue (.bool true) ++ s = 't' :: ('r' :: 'u' :: 'e' :: s) from rfl,
      splitValueAt_atom levels (by decide) (by decide)]
    rfl

/-- The front of a value that is neither a word nor a table nor an array. -/
theorem splitValueAt_plain (levels : Nat) {c : Char} (h : c ∉ ['[', '{', 't', 'f'])
    (s : List Char) :
    splitValueAt levels (c :: s) =
      match Text.split? (c :: s) with
      | some (text, rest) => some (.string (String.ofList text), rest)
      | none =>
        match Time.split? (c :: s) with
        | some rest => some (.time ((c :: s).take ((c :: s).length - rest.length)), rest)
        | none =>
          match Number.splitFloat? (c :: s) with
          | some (x, rest) => some (.float x, rest)
          | none => (Number.splitInteger? (c :: s)).map fun (n, rest) => (.integer n, rest) := by
  simp only [List.mem_cons, not_or] at h
  exact (splitValueAt_atom levels h.1 h.2.1 s).trans
    (splitAtom?.eq_3 _ (fun _ e => h.2.2.1 (List.cons.inj e).1)
      fun _ e => h.2.2.2.1 (List.cons.inj e).1)

theorem Ends.head? {s : List Char} (h : Ends s) : s.head? ≠ some '"' ∧ s.head? ≠ some '\'' := by
  obtain ⟨c, t, rfl, hc⟩ := h
  simp only [List.mem_cons, List.not_mem_nil, or_false] at hc
  rcases hc with rfl | rfl | rfl <;> simp

theorem write_eq_cons (s : List Char) : ∃ c t, Text.write s = c :: t ∧ (c = '"' ∨ c = '\'') := by
  unfold Text.write
  split <;> exact ⟨_, _, rfl, by decide⟩

theorem readsBack_string (levels : Nat) (s : String) : ReadsBack levels (.string s) := by
  obtain ⟨c, t, hw, hc⟩ := write_eq_cons s.toList
  refine ⟨⟨c, t, hw, by rcases hc with rfl | rfl <;> decide⟩, fun rest hr => ?_⟩
  have reread := Text.split?_write s.toList hr.head?.1 hr.head?.2
  rw [hw, List.cons_append] at reread
  rw [writeValue, hw, List.cons_append,
    splitValueAt_plain levels (by rcases hc with rfl | rfl <;> decide), reread]
  simp

/-- Nothing but a quote or an apostrophe starts a text. -/
theorem textSplit?_cons {c : Char} (hq : c ≠ '"') (ha : c ≠ '\'') (s : List Char) :
    Text.split? (c :: s) = none := by
  rw [Text.split?.eq_3 _ (fun _ e => hq (List.cons.inj e).1) fun _ e => ha (List.cons.inj e).1,
    Text.splitLine?.eq_3 _ (fun _ e => hq (List.cons.inj e).1) fun _ e => ha (List.cons.inj e).1]

/-- A minus and the digits start values, but no value of another kind than a number. -/
theorem startsNumber {c : Char} (h : c = '-' ∨ c.isDigit = true) :
    StartsValue c ∧ c ∉ ['[', '{', 't', 'f'] ∧ c ≠ '"' ∧ c ≠ '\'' := by
  have other (d : Char) (hd : ¬ (d = '-' ∨ d.isDigit = true)) : c ≠ d := fun e => hd (e ▸ h)
  have no : ∀ d ∈ [' ', '\t', '\n', '\r', '#', ']', '[', '{', 't', 'f', '"', '\''], c ≠ d := by
    simp only [List.forall_mem_cons]
    refine ⟨?_, ?_, ?_, ?_, ?_, ?_, ?_, ?_, ?_, ?_, ?_, ?_, by simp⟩ <;> exact other _ (by decide)
  simp only [List.forall_mem_cons] at no
  simp [StartsValue, no]

theorem readsBack_integer (levels : Nat) {n : Nat} (hn : (n : Int) ≤ Number.greatest) :
    ReadsBack levels (.integer n) := by
  have text : writeValue (.integer n) = Nat.toDigits 10 n := Nat.toList_repr
  obtain ⟨c, t, hc⟩ := (Decimal.isWhole_toDigits n).exists_cons
  have digit := Decimal.isDigit_toDigits n c (by simp [hc])
  obtain ⟨starts, plain, hq, ha⟩ := startsNumber (.inr digit)
  refine ⟨⟨c, t, text.trans hc, starts⟩, fun s hs => ?_⟩
  rw [text, hc, List.cons_append, splitValueAt_plain levels plain, textSplit?_cons hq ha,
    ← List.cons_append, ← hc, Number.timeSplit?_toDigits n hs, Number.splitFloat?_toDigits n hs,
    Number.splitInteger?_toDigits hn hs]
  rfl

theorem readsBack_float (levels : Nat) {x : Float} (h : x.isFinite = true) :
    ReadsBack levels (.float x) := by
  obtain ⟨negative, m, q, hx⟩ := Binary64.exists_value_of_isFinite h
  have front : ∃ c t, Number.writeFloat x = c :: t ∧ (c = '-' ∨ c.isDigit = true) := by
    obtain ⟨whole, fraction, he, hw, -⟩ := Number.exists_writeFloat hx
    obtain ⟨d, ds, rfl⟩ := hw.exists_cons
    cases negative with
    | true => exact ⟨'-', _, he, .inl rfl⟩
    | false => exact ⟨d, _, he, .inr (hw.digits d List.mem_cons_self)⟩
  obtain ⟨c, t, hc, hn⟩ := front
  obtain ⟨starts, plain, hq, ha⟩ := startsNumber hn
  refine ⟨⟨c, t, hc, starts⟩, fun s hs => ?_⟩
  rw [writeValue, hc, List.cons_append, splitValueAt_plain levels plain, textSplit?_cons hq ha,
    ← List.cons_append, ← hc, Number.timeSplit?_writeFloat hx s,
    Number.splitFloat?_writeFloat hx hs]

/-! ### Arrays -/

@[simp] theorem joined_singleton (separator s : List Char) : joined separator [s] = s := rfl

theorem joined_cons_cons (separator s t : List Char) (r : List (List Char)) :
    joined separator (s :: t :: r) = s ++ separator ++ joined separator (t :: r) := rfl

/-- Items start as their first one does. -/
theorem joined_starts {levels : Nat} {v : Toml} (h : ReadsBack levels v) (items : List Toml)
    (s : List Char) :
    ∃ c t, joined [',', ' '] (writeItems (v :: items)) ++ s = c :: t ∧ StartsValue c := by
  obtain ⟨c, t, hc, starts⟩ := h.starts
  cases items with
  | nil => exact ⟨c, t ++ s, by simp [writeItems, hc], starts⟩
  | cons w items => exact ⟨c, _, by simp [writeItems, joined, hc]; rfl, starts⟩

/-- One item with the separator after it. -/
theorem splitItemsFor_cons {levels : Nat} {v : Toml} (h : ReadsBack levels v) {d c : Char}
    (hc : StartsValue c) (fuel s : List Char) :
    splitItemsFor (splitValueAt levels) (d :: fuel) (writeValue v ++ ',' :: ' ' :: c :: s) =
      (splitItemsFor (splitValueAt levels) fuel (c :: s)).map fun p => (v :: p.1, p.2) := by
  obtain ⟨e, t, he, starts⟩ := h.starts
  have close : c ≠ ']' := by rintro rfl; exact absurd hc (by decide)
  have front : dropGaps false (writeValue v ++ ',' :: ' ' :: c :: s) =
      writeValue v ++ ',' :: ' ' :: c :: s := by
    rw [he, List.cons_append, dropGaps_starts starts]
  rw [splitItemsFor, front, h.splits _ ⟨',', _, rfl, by decide⟩]
  have gap : dropGaps false (' ' :: c :: s) = c :: s := by
    rw [dropGaps.eq_3 _ _ _ fun _ e => absurd e (by decide)]
    exact dropGaps_starts hc s
  have comma : dropGaps false (',' :: ' ' :: c :: s) = ',' :: ' ' :: c :: s := rfl
  simp only [Option.bind_eq_bind, Option.bind_some, comma, gap]
  cases h : splitItemsFor (splitValueAt levels) fuel (c :: s) <;> simp [close, h]

theorem splitItemsFor_joined {levels : Nat} {v : Toml} {items : List Toml}
    (h : ∀ w ∈ v :: items, ReadsBack levels w) {fuel : List Char}
    (hf : items.length < fuel.length) (s : List Char) :
    splitItemsFor (splitValueAt levels) fuel
      (joined [',', ' '] (writeItems (v :: items)) ++ ']' :: s) = some (v :: items, s) := by
  induction items generalizing v fuel with
  | nil =>
    have hv := h v List.mem_cons_self
    obtain ⟨c, t, hc, starts⟩ := hv.starts
    obtain ⟨d, fuel, rfl⟩ := List.exists_cons_of_length_pos hf
    have front : dropGaps false (writeValue v ++ ']' :: s) = writeValue v ++ ']' :: s := by
      rw [hc, List.cons_append, dropGaps_starts starts]
    rw [writeItems, writeItems, joined, splitItemsFor, front, hv.splits _ ⟨']', s, rfl, by decide⟩]
    rfl
  | cons w items ih =>
    obtain ⟨d, fuel, rfl⟩ := List.exists_cons_of_length_pos (Nat.zero_lt_of_lt hf)
    have tail := ih (fun u hu => h u (List.mem_cons_of_mem v hu)) (Nat.lt_of_succ_lt_succ hf)
    obtain ⟨c, t, hc, starts⟩ := joined_starts
      (h w (List.mem_cons_of_mem v List.mem_cons_self)) items (']' :: s)
    have text : joined [',', ' '] (writeItems (v :: w :: items)) ++ ']' :: s =
        writeValue v ++ ',' :: ' ' :: c :: t := by
      rw [← hc]; simp [writeItems, joined]
    rw [text, splitItemsFor_cons (h v List.mem_cons_self) starts, ← hc, tail]
    rfl

/-- The text of items is at least as long as their number, so it is enough fuel. -/
theorem length_le_joined {levels : Nat} {items : List Toml}
    (h : ∀ v ∈ items, ReadsBack levels v) :
    items.length ≤ (joined [',', ' '] (writeItems items)).length := by
  induction items with
  | nil => exact Nat.zero_le _
  | cons v items ih =>
    obtain ⟨c, t, hc, -⟩ := (h v List.mem_cons_self).starts
    have tail := ih fun w hw => h w (List.mem_cons_of_mem v hw)
    cases items with
    | nil => simp [writeItems, hc]
    | cons w items => simp [writeItems, joined, hc] at tail ⊢; omega

theorem readsBack_array {levels : Nat} {items : List Toml} (h : ∀ v ∈ items, ReadsBack levels v) :
    ReadsBack (levels + 1) (.array items) := by
  refine ⟨⟨'[', _, rfl, by decide⟩, fun s hs => ?_⟩
  have text : writeValue (.array items) ++ s =
      '[' :: (joined [',', ' '] (writeItems items) ++ ']' :: s) := by
    simp [writeValue]
  have split : splitItems? (splitValueAt levels)
      (joined [',', ' '] (writeItems items) ++ ']' :: s) = some (items, s) := by
    cases items with
    | nil => rfl
    | cons v items =>
      obtain ⟨c, t, hc, starts⟩ := joined_starts (h v List.mem_cons_self) items
        (']' :: s)
      have close : c ≠ ']' := by rintro rfl; exact absurd starts (by decide)
      have fuel : items.length <
          (joined [',', ' '] (writeItems (v :: items)) ++ ']' :: s).length := by
        have := length_le_joined h
        rw [List.length_append]
        simp only [List.length_cons] at this ⊢
        omega
      have items := splitItemsFor_joined h fuel s
      rw [hc] at items ⊢
      rw [splitItems?, dropGaps_starts starts]
      simpa [close] using items
  rw [text, splitValueAt, split]
  rfl

/-! ### Keys -/

theorem splitKey?_writeKey (key : String) {c : Char} (hc : isBareChar c = false) (s : List Char) :
    splitKey? (writeKey key ++ c :: s) = some (key, c :: s) := by
  simp only [writeKey]
  split
  · rename_i hb
    simp only [Bool.and_eq_true, Bool.not_eq_true', List.isEmpty_eq_false_iff, List.all_eq_true]
      at hb
    have bare : (key.toList ++ c :: s).takeWhile isBareChar = key.toList := by
      rw [List.takeWhile_append_of_pos hb.2, List.takeWhile_cons, hc]; simp
    have rest : (key.toList ++ c :: s).dropWhile isBareChar = c :: s := by
      rw [List.dropWhile_append_of_pos hb.2, List.dropWhile_cons, hc]; simp
    simp [splitKey?, bare, rest, hb.1]
  · have quoted : Text.enclose ['"'] (Text.escape false 0 key.toList) ++ c :: s =
        '"' :: (Text.escape false 0 key.toList ++ '"' :: c :: s) := by
      simp [Text.enclose]
    have reread := Text.splitBasic?_escape 0 key.toList (c :: s)
    rw [quoted, splitKey?]
    simp [show isBareChar '"' = false by decide, Text.splitLine?, reread]

theorem exists_writeKey (key : String) :
    ∃ c t, writeKey key = c :: t ∧ (c = '"' ∨ isBareChar c = true) := by
  simp only [writeKey]
  split
  · rename_i hb
    simp only [Bool.and_eq_true, Bool.not_eq_true', List.isEmpty_eq_false_iff, List.all_eq_true]
      at hb
    obtain ⟨c, t, hc⟩ := List.exists_cons_of_ne_nil hb.1
    exact ⟨c, t, hc, .inr (hb.2 c (by simp [hc]))⟩
  · exact ⟨'"', _, rfl, .inl rfl⟩

theorem dropBlanks_writeKey (key : String) (s : List Char) :
    dropBlanks (writeKey key ++ s) = writeKey key ++ s := by
  obtain ⟨c, t, hc, front⟩ := exists_writeKey key
  have other (d : Char) (hd : ¬ (d = '"' ∨ isBareChar d = true)) : c ≠ d := fun e => hd (e ▸ front)
  have blank : isBlank c = false := by
    simp [isBlank, other ' ' (by decide), other '\t' (by decide)]
  rw [hc]
  exact dropBlanks_cons _ blank

theorem splitKeysFor_writePath {key : String} {path : List String} {fuel : Nat}
    (hf : path.length < fuel) {c : Char} {s : List Char} (hc : isBareChar c = false)
    (hdot : (dropBlanks (c :: s)).head? ≠ some '.') :
    splitKeysFor fuel (writePath (key :: path) ++ c :: s) =
      some (key :: path, dropBlanks (c :: s)) := by
  induction path generalizing key fuel with
  | nil =>
    obtain ⟨fuel, rfl⟩ := Nat.exists_eq_succ_of_ne_zero (Nat.ne_zero_of_lt hf)
    rw [writePath, List.map_singleton, joined_singleton, splitKeysFor, dropBlanks_writeKey,
      splitKey?_writeKey key hc s]
    simp only [Option.bind_eq_bind, Option.bind_some]
    split
    · rename_i e; rw [e] at hdot; exact absurd rfl hdot
    · rfl
  | cons next path ih =>
    obtain ⟨fuel, rfl⟩ := Nat.exists_eq_succ_of_ne_zero (Nat.ne_zero_of_lt hf)
    have text : writePath (key :: next :: path) ++ c :: s =
        writeKey key ++ '.' :: (writePath (next :: path) ++ c :: s) := by
      simp [writePath, joined]
    rw [text, splitKeysFor, dropBlanks_writeKey, splitKey?_writeKey key (by decide)]
    simp [dropBlanks_cons _ (show isBlank '.' = false from rfl), ih (Nat.lt_of_succ_lt_succ hf)]

theorem exists_writePath {path : List String} (h : path ≠ []) :
    ∃ c t, writePath path = c :: t ∧ (c = '"' ∨ isBareChar c = true) := by
  obtain ⟨key, others, rfl⟩ := List.exists_cons_of_ne_nil h
  obtain ⟨c, t, hc, front⟩ := exists_writeKey key
  cases others with
  | nil => exact ⟨c, t, by simp [writePath, hc], front⟩
  | cons next others => exact ⟨c, _, by simp [writePath, joined, hc]; rfl, front⟩

/-- A path of keys, if it is not too long. -/
theorem splitKeys?_writePath {path : List String} {key : String} (hl : path.length < maxDepth - 1)
    {c : Char} {s : List Char} (hc : isBareChar c = false)
    (hdot : (dropBlanks (c :: s)).head? ≠ some '.') :
    splitKeys? (writePath (path ++ [key]) ++ c :: s) = some (path, key, dropBlanks (c :: s)) := by
  obtain ⟨first, others, hp⟩ : ∃ first others, path ++ [key] = first :: others :=
    List.exists_cons_of_ne_nil (by simp)
  have length : others.length < maxDepth - 1 := by
    have := congrArg List.length hp
    simp only [List.length_append, List.length_cons, List.length_nil] at this
    omega
  rw [splitKeys?, hp, splitKeysFor_writePath length hc hdot, ← hp]
  simp

/-! ### Entries -/

/-- The text of a key with its value. -/
def writeEntry (e : String × Toml) : List Char :=
  writeKey e.1 ++ [' ', '=', ' '] ++ writeValue e.2

theorem writeEntries_eq_map (es : List (String × Toml)) : writeEntries es = es.map writeEntry := by
  induction es with
  | nil => rfl
  | cons e es ih => rw [writeEntries, ih]; rfl

theorem splitEntry?_writeEntry {key : String} {v : Toml} (h : ReadsBack (maxDepth - 1) v)
    (s : List Char) :
    splitEntry? splitValue? (writeEntry (key, v) ++ '\n' :: s) = some ([], key, v, '\n' :: s) := by
  obtain ⟨c, t, hc, starts⟩ := h.starts
  have text : writeEntry (key, v) ++ '\n' :: s =
      writePath ([] ++ [key]) ++ ' ' :: '=' :: ' ' :: (writeValue v ++ '\n' :: s) := by
    simp [writeEntry, writePath]
  have value : dropBlanks (' ' :: (writeValue v ++ '\n' :: s)) = writeValue v ++ '\n' :: s := by
    rw [hc, List.cons_append]
    exact dropBlanks_starts starts _
  have equals (s : List Char) : dropBlanks (' ' :: '=' :: s) = '=' :: s := rfl
  rw [text, splitEntry?, splitKeys?_writePath (by decide) (by decide) (by simp [equals]), equals]
  simp only [Option.bind_eq_bind, Option.bind_some, value]
  rw [splitValue?, h.splits _ ⟨'\n', s, rfl, by decide⟩]
  rfl

end Campaign.Toml
