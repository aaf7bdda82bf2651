import Campaign.Proofs.Csv.Table

/-!
# Catalogues are read back, but for bare returns

Where line feeds alone end records, a catalogue reads as its reports. Where a carriage return ends
records as well, it does so exactly if no name and no description holds a return without a character
that puts it in quotes. A return in a bare field ends its record too early: the record that is read
there is not the one that was written, and since reading never takes a record back, it stands in
what is read in the end.

## Main statements

* `records_readAll?`, `records_finish?`: reading only adds records;
* `exists_record_of_return`, `exists_records_of_return`: the record that a bare return cuts off;
* `read?_table_iff`: the tables that are read back where returns end records;
* `read?_catalog`: catalogues;
* `returned_not_read`: a description that is torn apart.
-/

namespace Campaign.Csv

namespace Reading

/-! ### Reading only adds records -/

section

variable {ends : RecordEnd}

theorem records_step? {r r' : Reading} {c : Char} (h : step? ends r c = some r') :
    r.records <:+ r'.records := by
  unfold step? quote? at h
  split_ifs at h
  all_goals try cases h
  -- a character goes to the field, ends the field, or ends the record
  all_goals try exact List.suffix_refl _
  all_goals try exact List.suffix_cons _ _
  split at h
  all_goals cases h
  all_goals exact List.suffix_refl _

theorem records_readAll? {s : List Char} {r r' : Reading} (h : readAll? ends r s = some r') :
    r.records <:+ r'.records := by
  induction s generalizing r with
  | nil =>
    obtain rfl := Option.some.inj h
    exact List.suffix_refl _
  | cons c s ih =>
    rw [readAll?_cons] at h
    obtain ⟨r₁, hstep, hrest⟩ := Option.bind_eq_some_iff.1 h
    exact (records_step? hstep).trans (ih hrest)

theorem records_finish? {r : Reading} {rows : List (List String)} (h : r.finish? = some rows) :
    r.records.reverse <+: rows := by
  unfold finish? at h
  split_ifs at h
  · obtain rfl := Option.some.inj h
    exact List.prefix_refl _
  · obtain rfl := Option.some.inj h
    rw [endRecord, List.reverse_cons]
    exact List.prefix_append _ _

end

/-! ### Bare returns -/

variable (fields : List String) (records : List (List String))

/-- A bare return ends its record with the text in front of it. -/
theorem readAll?_return {s : String} (hs : ¬ RecordEnd.anyBreak.Spares s) :
    ∃ (t : String) (rest : List Char), t ≠ s ∧
      readAll? .anyBreak { fields, records } (Csv.field s).toList =
        readAll? .anyBreak { place := .afterReturn, records := (fields.reverse ++ [t]) :: records }
          rest := by
  simp only [RecordEnd.Spares, forall_true_left, Classical.not_imp, Bool.not_eq_true] at hs
  obtain ⟨hmem, hany⟩ := hs
  obtain ⟨before, rest, hsplit, hbefore⟩ := List.eq_append_cons_of_mem hmem
  have hbare : ∀ c ∈ before, isSpecial c = false := by
    intro c hc
    rw [hsplit, List.any_append, Bool.or_eq_false_iff] at hany
    simpa using List.any_eq_false.1 hany.1 c hc
  refine ⟨String.ofList before, rest, ?_, ?_⟩
  · rintro rfl
    exact hbefore (by rwa [String.toList_ofList] at hmem)
  · have hread := readAll?_bare before (r := { fields, records }) (.inl rfl) hbare
      fun _ : RecordEnd.anyBreak = .anyBreak => hbefore
    rw [Csv.field, if_neg (by simp [hany]), hsplit, readAll?_append, hread, Option.bind_some,
      readAll?_cons]
    split_ifs <;> simp [step?, endRecord]

/-- **A record with a bare return** reads as another record first, by induction over its fields: up
to the return they are collected as they are. -/
theorem exists_record_of_return {row : List String}
    (hrow : ∃ s ∈ row, ¬ RecordEnd.anyBreak.Spares s) {r : Reading}
    (h : readAll? .anyBreak { fields, records } (record row).toList = some r) :
    ∃ row', row' ≠ fields.reverse ++ row ∧ row' :: records <:+ r.records := by
  induction row generalizing fields with
  | nil => simp at hrow
  | cons s others ih =>
    by_cases hs : RecordEnd.anyBreak.Spares s
    · have hothers : ∃ t ∈ others, ¬ RecordEnd.anyBreak.Spares t := by
        obtain ⟨t, ht, hbad⟩ := hrow
        rcases List.mem_cons.1 ht with rfl | ht
        · exact absurd hs hbad
        · exact ⟨t, ht, hbad⟩
      have hne : others ≠ [] := by
        rintro rfl
        simp at hothers
      obtain ⟨place, hplace, hread⟩ := readAll?_field fields records hs
      rw [toList_record_cons s hne, readAll?_append, hread, Option.bind_some,
        readAll?_comma fields records hplace] at h
      obtain ⟨row', hdiffer, hsuffix⟩ := ih (s :: fields) hothers h
      exact ⟨row', by simpa using hdiffer, hsuffix⟩
    · have hfield : ∃ behind, (record (s :: others)).toList = (Csv.field s).toList ++ behind := by
        rcases eq_or_ne others [] with rfl | hne
        · exact ⟨_, toList_record_singleton s⟩
        · exact ⟨_, toList_record_cons s hne⟩
      obtain ⟨behind, hbehind⟩ := hfield
      obtain ⟨t, rest, hdiffer, hread⟩ := readAll?_return fields records hs
      rw [hbehind, readAll?_append, hread, ← readAll?_append] at h
      refine ⟨fields.reverse ++ [t], ?_, records_readAll? h⟩
      intro heq
      exact hdiffer (List.cons.inj (List.append_cancel_left heq)).1

/-- **A table with a bare return** reads as another record in some place, by induction over its
records. -/
theorem exists_records_of_return {rows : List (List String)} (hn : ∀ row ∈ rows, row ≠ [])
    (hrows : ∃ row ∈ rows, ∃ s ∈ row, ¬ RecordEnd.anyBreak.Spares s) {r : Reading}
    (h : readAll? .anyBreak { records } (table rows).toList = some r) :
    ∃ before row row' after, rows = before ++ row :: after ∧ row' ≠ row ∧
      row' :: (before.reverse ++ records) <:+ r.records := by
  induction rows generalizing records with
  | nil => simp at hrows
  | cons row rows ih =>
    obtain ⟨hne, hn⟩ := List.forall_mem_cons.1 hn
    rw [table, List.map_cons, String.join_cons, String.toList_append, readAll?_append] at h
    obtain ⟨r₁, hrecord, hrest⟩ := Option.bind_eq_some_iff.1 h
    by_cases hrow : ∃ s ∈ row, ¬ RecordEnd.anyBreak.Spares s
    · obtain ⟨row', hdiffer, hsuffix⟩ := exists_record_of_return [] records hrow hrecord
      exact ⟨[], row, row', rows, rfl, hdiffer, hsuffix.trans (records_readAll? hrest)⟩
    · have hspared : ∀ s ∈ row, RecordEnd.anyBreak.Spares s := by
        intro s hs
        by_contra hbad
        exact hrow ⟨s, hs, hbad⟩
      have hothers : ∃ row ∈ rows, ∃ s ∈ row, ¬ RecordEnd.anyBreak.Spares s := by
        obtain ⟨bad, hmem, hbad⟩ := hrows
        rcases List.mem_cons.1 hmem with rfl | hmem
        · exact absurd hbad hrow
        · exact ⟨bad, hmem, hbad⟩
      rw [readAll?_record [] records hne hspared] at hrecord
      obtain rfl := Option.some.inj hrecord
      obtain ⟨before, bad, row', after, rfl, hdiffer, hsuffix⟩ := ih _ hn hothers hrest
      exact ⟨row :: before, bad, row', after, rfl, hdiffer, by simpa using hsuffix⟩

end Reading

/-! ### Tables -/

/-- **Where returns end records**, a table reads as its records exactly if it has no bare
return. -/
theorem read?_table_iff {rows : List (List String)} (hn : ∀ row ∈ rows, row ≠ []) :
    read? .anyBreak (table rows) = some rows ↔
      ∀ row ∈ rows, ∀ s ∈ row, RecordEnd.anyBreak.Spares s := by
  constructor
  · intro h
    by_contra hbad
    push Not at hbad
    obtain ⟨r, hread, hfinish⟩ := Option.bind_eq_some_iff.1 h
    obtain ⟨before, row, row', after, rfl, hdiffer, hsuffix⟩ :=
      Reading.exists_records_of_return [] hn hbad hread
    have hprefix : before ++ [row'] <+: before ++ row :: after := by
      have hreversed := List.reverse_prefix.2 hsuffix
      rw [List.append_nil, List.reverse_cons, List.reverse_reverse] at hreversed
      exact hreversed.trans (Reading.records_finish? hfinish)
    rw [List.prefix_append_right_inj, List.cons_prefix_cons] at hprefix
    exact hdiffer hprefix.1
  · intro h
    exact read?_table fun row hrow => ⟨hn row hrow, h row hrow⟩

theorem spares_anyBreak_iff (s : String) :
    RecordEnd.anyBreak.Spares s ↔
      ('\r' ∈ s.toList → ',' ∈ s.toList ∨ '"' ∈ s.toList ∨ '\n' ∈ s.toList) := by
  have hany : s.toList.any isSpecial = true ↔
      ',' ∈ s.toList ∨ '"' ∈ s.toList ∨ '\n' ∈ s.toList := by
    simp [isSpecial, and_or_left, exists_or, or_assoc]
  rw [← hany]
  exact ⟨fun h => h rfl, fun h _ => h⟩

theorem spares_of_not_mem {ends : RecordEnd} {s : String} (h : '\r' ∉ s.toList) :
    ends.Spares s := by
  intro _ hmem
  exact absurd hmem h

theorem spares_toString (ends : RecordEnd) (n : ℕ) : ends.Spares (toString n) := by
  refine spares_of_not_mem ?_
  intro hmem
  have hdigit := Decimal.isDigit_toDigits n '\r' (by simpa using hmem)
  exact absurd hdigit (by decide)

/-! ### Catalogues -/

/-- **The catalogue of reports** reads as the header, then for each report in order its name, the
numbers of its samples and its comparisons, and its description. Where returns end records, this is
so exactly if each name and each description with a return holds a comma, a quote or a line feed as
well. -/
theorem read?_catalog (rs : List Report) :
    let expected := ["name", "samples", "comparisons", "description"] :: rs.map fun r =>
      [r.name, toString r.samples.length, toString r.comparisons.length, r.description]
    read? .lineFeed (catalog rs) = some expected ∧
      (read? .anyBreak (catalog rs) = some expected ↔ ∀ r ∈ rs, ∀ s ∈ [r.name, r.description],
        '\r' ∈ s.toList → ',' ∈ s.toList ∨ '"' ∈ s.toList ∨ '\n' ∈ s.toList) := by
  intro expected
  have hcatalog : catalog rs = table expected := rfl
  have hn : ∀ row ∈ expected, row ≠ [] := by simp [expected]
  have hheader : ∀ s ∈ ["name", "samples", "comparisons", "description"],
      RecordEnd.anyBreak.Spares s := by
    intro s hs
    refine spares_of_not_mem ?_
    revert s
    decide
  rw [hcatalog]
  refine ⟨read?_table fun row hrow => ⟨hn row hrow, fun s _ => spares_lineFeed s⟩, ?_⟩
  rw [read?_table_iff hn, List.forall_mem_cons, List.forall_mem_map]
  simp only [← spares_anyBreak_iff]
  constructor
  · rintro ⟨-, hreports⟩ r hr s hs
    refine hreports r hr s ?_
    rcases List.mem_pair.1 hs with rfl | rfl <;> simp
  · intro hreports
    refine ⟨hheader, ?_⟩
    intro r hr s hs
    have htexts := hreports r hr
    simp only [List.mem_cons, List.not_mem_nil, or_false] at hs
    rcases hs with rfl | rfl | rfl | rfl
    · exact htexts _ (by simp)
    · exact spares_toString _ _
    · exact spares_toString _ _
    · exact htexts _ (by simp)

/-- A report whose description holds a bare return. -/
def returned : Report := { name := "split", description := "one\rtwo" }

/-- The rest of the description is read as a record of its own. -/
theorem returned_not_read :
    read? .anyBreak (catalog [returned]) =
        some [["name", "samples", "comparisons", "description"], ["split", "0", "0", "one"],
          ["two"]] ∧
      read? .anyBreak (catalog [returned]) ≠
        some [["name", "samples", "comparisons", "description"],
          ["split", "0", "0", "one\rtwo"]] := by
  have hread : read? .anyBreak (catalog [returned]) =
      some [["name", "samples", "comparisons", "description"], ["split", "0", "0", "one"],
        ["two"]] := by decide +kernel
  refine ⟨hread, ?_⟩
  rw [hread]
  decide

end Campaign.Csv
