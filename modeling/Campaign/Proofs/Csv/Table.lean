import Campaign.Csv.Read
import Campaign.Proofs.Decimal.Read

/-!
# Tables are read back

A table reads as its records. The reader is followed through a field, then through the fields of a
record, then through the records: behind a field it stands where the field may end, with the text of
the field in hand, and the comma or the line feed that follows ends it.

A field that stands bare is read as it is if no character of it ends a record. That is no condition
where line feeds alone end records, since a field with a line feed is put in quotes.

* `RecordEnd.Spares`: a text that is written bare only if none of its characters ends a record;
* `StatesMean`, `StatesTest`: the fields of a record, the figures by what they are read as.

## Main statements

* `readAll?_field`, `readAll?_record`: one field and one record;
* `read?_table`: a whole table;
* `read?_outcomes`: the table of outcomes.
-/

namespace Campaign.Csv

/-- A text that holds a carriage return only if this does not end records, or is put in quotes. -/
def RecordEnd.Spares (ends : RecordEnd) (s : String) : Prop :=
  ends = .anyBreak → '\r' ∈ s.toList → s.toList.any isSpecial = true

theorem spares_lineFeed (s : String) : RecordEnd.lineFeed.Spares s := fun h => by cases h

/-! ### Fields -/

namespace Reading

variable {ends : RecordEnd}

/-- A character that is no mark goes to the field as it is. -/
theorem step?_bare {r : Reading} {c : Char} (hplace : r.place = .start ∨ r.place = .bare)
    (hc : isSpecial c = false) (hreturn : ends = .anyBreak → c ≠ '\r') :
    step? ends r c = some (r.push .bare c) := by
  have hmarks : c ≠ ',' ∧ c ≠ '"' ∧ c ≠ '\n' := by simpa [isSpecial, and_assoc] using hc
  have hends : ¬(c = '\r' ∧ ends = .anyBreak) := fun h => hreturn h.2 h.1
  have hquoted : r.place ≠ .quoted := by rcases hplace with h | h <;> simp [h]
  have hclosed : r.place ≠ .closed := by rcases hplace with h | h <;> simp [h]
  rw [step?, if_neg hquoted, if_neg hmarks.1, if_neg hmarks.2.2, if_neg hends, if_neg hmarks.2.1,
    if_neg hclosed]

theorem readAll?_bare (s : List Char) {r : Reading} (hplace : r.place = .start ∨ r.place = .bare)
    (hs : ∀ c ∈ s, isSpecial c = false) (hreturn : ends = .anyBreak → '\r' ∉ s) :
    readAll? ends r s =
      some { r with place := if s = [] then r.place else .bare, field := s.reverse ++ r.field } := by
  induction s generalizing r with
  | nil => rfl
  | cons c s ih =>
    obtain ⟨hc, hs⟩ := List.forall_mem_cons.1 hs
    have hstep : step? ends r c = some (r.push .bare c) := by
      refine step?_bare hplace hc ?_
      rintro hany rfl
      exact hreturn hany List.mem_cons_self
    have hrest := ih (r := r.push .bare c) (.inr rfl) hs fun hany hmem =>
      hreturn hany (List.mem_cons_of_mem c hmem)
    rw [readAll?_cons, hstep, Option.bind_some, hrest]
    simp [push]

theorem readAll?_quoted (s : List Char) {r : Reading} (hplace : r.place = .start) :
    readAll? ends r ('"' :: doubleQuotes s ++ ['"']) =
      some { r with place := .closed, field := s.reverse ++ r.field } := by
  have hopen : step? ends r '"' = some { r with place := .quoted } := by
    simp [step?, quote?, hplace]
  have hbetween := readAll?_doubleQuotes ends { r with place := .quoted } s rfl
  have hclose : step? ends { r with place := .quoted, field := s.reverse ++ r.field } '"' =
      some { r with place := .closed, field := s.reverse ++ r.field } := rfl
  rw [List.cons_append, readAll?_cons, hopen, Option.bind_some, readAll?_append, hbetween,
    Option.bind_some, readAll?_cons, hclose]
  rfl

variable (fields : List String) (records : List (List String))

/-- **A field as written**, whatever its text: behind it the text is in hand, and whatever comes
next is read as the end of a bare or a quoted field. -/
theorem readAll?_field {s : String} (hs : ends.Spares s) :
    ∃ place : Place, (place = .start ∨ place = .bare ∨ place = .closed) ∧
      readAll? ends { fields, records } (Csv.field s).toList =
        some { place, field := s.toList.reverse, fields, records } := by
  cases hany : s.toList.any isSpecial with
  | true =>
    refine ⟨.closed, .inr (.inr rfl), ?_⟩
    rw [Csv.field, if_pos hany, String.toList_ofList, readAll?_quoted s.toList rfl, List.append_nil]
  | false =>
    have hbare : ∀ c ∈ s.toList, isSpecial c = false := by simpa using hany
    have hreturn : ends = .anyBreak → '\r' ∉ s.toList := fun hends hmem => by
      rw [hs hends hmem] at hany
      cases hany
    refine ⟨if s.toList = [] then .start else .bare, by split_ifs <;> simp, ?_⟩
    rw [Csv.field, if_neg (by simp [hany]), readAll?_bare s.toList (.inl rfl) hbare hreturn,
      List.append_nil]

/-- A comma ends a field and begins the next. -/
theorem readAll?_comma {place : Place} (h : place = .start ∨ place = .bare ∨ place = .closed)
    (s : String) (rest : List Char) :
    readAll? ends { place, field := s.toList.reverse, fields, records } (',' :: rest) =
      readAll? ends { fields := s :: fields, records } rest := by
  rw [readAll?_cons]
  rcases h with rfl | rfl | rfl <;> simp [step?, endField]

/-- A line feed ends a field and with it the record. -/
theorem readAll?_lineFeed {place : Place} (h : place = .start ∨ place = .bare ∨ place = .closed)
    (s : String) (rest : List Char) :
    readAll? ends { place, field := s.toList.reverse, fields, records } ('\n' :: rest) =
      readAll? ends { records := (fields.reverse ++ [s]) :: records } rest := by
  rw [readAll?_cons]
  rcases h with rfl | rfl | rfl <;> simp [step?, endRecord]

/-! ### Records -/

theorem toList_record_singleton (s : String) :
    (record [s]).toList = (Csv.field s).toList ++ ['\n'] := by
  rw [record, String.toList_append]
  rfl

theorem toList_record_cons (s : String) {others : List String} (hn : others ≠ []) :
    (record (s :: others)).toList = (Csv.field s).toList ++ ',' :: (record others).toList := by
  obtain ⟨t, others, rfl⟩ := List.exists_cons_of_ne_nil hn
  simp only [record, List.map_cons, String.intercalate_cons_cons, String.toList_append,
    List.append_assoc]
  rfl

/-- **A record as written**, by induction over its fields: those that have been read are collected
in reverse. -/
theorem readAll?_record {row : List String} (hn : row ≠ []) (hrow : ∀ s ∈ row, ends.Spares s) :
    readAll? ends { fields, records } (record row).toList =
      some { records := (fields.reverse ++ row) :: records } := by
  induction row generalizing fields with
  | nil => exact absurd rfl hn
  | cons s others ih =>
    obtain ⟨hs, hothers⟩ := List.forall_mem_cons.1 hrow
    obtain ⟨place, hplace, hfield⟩ := readAll?_field fields records hs
    rcases eq_or_ne others [] with rfl | hne
    · rw [toList_record_singleton, readAll?_append, hfield, Option.bind_some,
        readAll?_lineFeed fields records hplace]
      rfl
    · rw [toList_record_cons s hne, readAll?_append, hfield, Option.bind_some,
        readAll?_comma fields records hplace, ih (s :: fields) hne hothers]
      simp

theorem readAll?_table {rows : List (List String)}
    (h : ∀ row ∈ rows, row ≠ [] ∧ ∀ s ∈ row, ends.Spares s) :
    readAll? ends { records } (table rows).toList =
      some { records := rows.reverse ++ records } := by
  induction rows generalizing records with
  | nil => rfl
  | cons row rows ih =>
    obtain ⟨⟨hn, hrow⟩, hrows⟩ := List.forall_mem_cons.1 h
    have hrecord := readAll?_record [] records hn hrow
    rw [table, List.map_cons, String.join_cons, String.toList_append, readAll?_append, hrecord,
      Option.bind_some]
    exact (ih _ hrows).trans (by simp)

end Reading

/-! ### Tables -/

/-- **A table of records with at least one field** reads as its records. -/
theorem read?_table {ends : RecordEnd} {rows : List (List String)}
    (h : ∀ row ∈ rows, row ≠ [] ∧ ∀ s ∈ row, ends.Spares s) :
    read? ends (table rows) = some rows := by
  have hread := Reading.readAll?_table [] h
  rw [List.append_nil] at hread
  rw [read?, hread]
  exact congrArg some (List.reverse_reverse rows)

/-! ### Tables of outcomes -/

/-- A text that reads as a double. -/
def Writes (text : String) (x : Float) : Prop := Decimal.readFloat? text.toList = some x

/-- The fields of the record of a mean. -/
inductive StatesMean (report : String) (line : MeanLine) : List String → Prop
  | intro {mean median stddev : String} (hmean : Writes mean line.mean.value)
      (hmedian : Writes median line.summary.median) (hstddev : Writes stddev line.summary.stddev) :
      StatesMean report line
        [report, "mean", line.label, "", "", mean, median, stddev, "", "", "", ""]

/-- The fields of the record of a test. -/
inductive StatesTest (report : String) (line : TestLine) : List String → Prop
  | intro {statistic pvalue : String} (hstatistic : Writes statistic line.result.statistic)
      (hpvalue : Writes pvalue line.result.pvalue) :
      StatesTest report line
        [report, "test", line.title, line.x, line.y, "", "", "", statistic, pvalue,
          line.result.method.name, line.result.alternative.name]

/-- The records of an outcome: one for each mean, then one for each test, in order. -/
inductive StatesOutcome (o : Outcome) : List (List String) → Prop
  | intro {means tests : List (List String)}
      (hmeans : List.Forall₂ (StatesMean o.name) o.means means)
      (htests : List.Forall₂ (StatesTest o.name) o.tests tests) : StatesOutcome o (means ++ tests)

theorem statesMean_meanRecord (report : String) (line : MeanLine) :
    StatesMean report line (meanRecord report line) :=
  .intro (Decimal.readFloat?_render Decimal.isLegible_figure _)
    (Decimal.readFloat?_render Decimal.isLegible_plain _)
    (Decimal.readFloat?_render Decimal.isLegible_plain _)

theorem statesTest_testRecord (report : String) (line : TestLine) :
    StatesTest report line (testRecord report line) :=
  .intro (Decimal.readFloat?_render Decimal.isLegible_figure _)
    (Decimal.readFloat?_render Decimal.isLegible_figure _)

theorem forall₂_map_of_forall {α β : Type} {R : α → β → Prop} {f : α → β} (h : ∀ a, R a (f a))
    (as : List α) : List.Forall₂ R as (as.map f) :=
  List.forall₂_map_right_iff.2 (List.forall₂_same.2 fun a _ => h a)

theorem statesOutcome_outcomeRecords (o : Outcome) : StatesOutcome o (outcomeRecords o) :=
  .intro (forall₂_map_of_forall (statesMean_meanRecord o.name) o.means)
    (forall₂_map_of_forall (statesTest_testRecord o.name) o.tests)

/-- Every record of a table of outcomes has a field for each column. -/
theorem length_outcomeRecords {o : Outcome} {row : List String} (h : row ∈ outcomeRecords o) :
    row.length = outcomeHeader.length := by
  rcases List.mem_append.1 h with h | h
  · obtain ⟨line, -, rfl⟩ := List.mem_map.1 h
    rfl
  · obtain ⟨line, -, rfl⟩ := List.mem_map.1 h
    rfl

/-- **The table of outcomes** reads as the header, then for each outcome in order the records of its
means and those of its tests, all of twelve fields. The texts are read as they were, the figures as
the same doubles. -/
theorem read?_outcomes (os : List Outcome) :
    ∃ rows, read? .lineFeed (outcomes os) = some (outcomeHeader :: rows.flatten) ∧
      List.Forall₂ StatesOutcome os rows ∧
      ∀ row ∈ outcomeHeader :: rows.flatten, row.length = 12 := by
  have hlength : ∀ row ∈ outcomeHeader :: (os.map outcomeRecords).flatten, row.length = 12 := by
    refine List.forall_mem_cons.2 ⟨rfl, fun row hrow => ?_⟩
    obtain ⟨records, hrecords, hrow⟩ := List.mem_flatten.1 hrow
    obtain ⟨o, -, rfl⟩ := List.mem_map.1 hrecords
    exact length_outcomeRecords hrow
  refine ⟨os.map outcomeRecords, ?_, forall₂_map_of_forall statesOutcome_outcomeRecords os, hlength⟩
  rw [outcomes, List.flatMap_def]
  refine read?_table fun row hrow => ⟨?_, fun s _ => spares_lineFeed s⟩
  rintro rfl
  exact absurd (hlength [] hrow) (by decide)

end Campaign.Csv
