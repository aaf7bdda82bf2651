import Campaign.Proofs.Toml.Lines
import Campaign.Proofs.Toml.Reread

/-!
# Documents read back

A value is `Writable` if no key of a table stands in it twice, if its plain values read back, and if
its tables stand inside one another no deeper than a key has parts.

The induction is on `Writable`. A value under a new key `Grows` the inner table by one entry: the
blocks of a table, or of rows, are read with the table around them as the inner one. Rows differ
from tables only in their header, which opens the next row after those before it.

## Main statements

* `Entries.grows_table`, `Entries.grows_rows`: one table, and the rows of one array;
* `read?_render`: a written document reads as `reread` says.
-/

namespace Campaign.Toml

open Campaign.Toml.Tree

/-! ### Documents that can be written -/

/-- A value that reads back, with so many levels of tables below it. -/
inductive Writable : Nat → Toml → Prop
  | plain {n : Nat} {v : Toml} : isPlain v = true → ReadsBack (maxDepth - 1) v → Writable n v
  | table {n : Nat} {es : List (String × Toml)} :
    (es.map (·.1)).Nodup → (∀ e ∈ es, Writable n e.2) → Writable (n + 1) (.table es)
  | rows {n : Nat} {items : List Toml} :
    isRows items = true → (∀ v ∈ items, Writable n v) → Writable n (.array items)

/-- The blocks of a value under a key. -/
def valueBlocks (path : List String) : Toml → List (List Char)
  | .array items => if isRows items then rowBlocks path items else []
  | v => tableBlocks (tableHeader path) path v

theorem entryBlocks_eq_flatMap (path : List String) (es : List (String × Toml)) :
    entryBlocks path es = es.flatMap fun e => valueBlocks (path ++ [e.1]) e.2 := by
  induction es with
  | nil => rfl
  | cons e es ih =>
    obtain ⟨key, v⟩ := e
    rw [List.flatMap_cons, ← ih]
    cases v <;> rfl

theorem valueBlocks_of_isPlain (path : List String) {v : Toml} (h : isPlain v = true) :
    valueBlocks path v = [] := by
  cases v with
  | table es => simp [isPlain] at h
  | array items => simp [valueBlocks, isPlain] at h ⊢; simp [h]
  | _ => rfl

/-- Plain values have no blocks. -/
theorem entryBlocks_filter (path : List String) (es : List (String × Toml)) :
    entryBlocks path es = entryBlocks path (es.filter (!isPlain ·.2)) := by
  simp only [entryBlocks_eq_flatMap]
  induction es with
  | nil => rfl
  | cons e es ih =>
    rw [List.flatMap_cons, ih, List.filter_cons]
    cases h : isPlain e.2 with
    | true => simp [valueBlocks_of_isPlain _ h]
    | false => simp

/-! ### Lines of values -/

/-- Keys that are new in a table stay so when another one is added. -/
theorem fresh_rest {t : Tree} {es : List (String × Toml)} {key : String}
    (hk : key ∉ es.map (·.1)) (hd : ∀ e ∈ es, e.1 ∉ keys t) (node : Node) :
    ∀ e ∈ es, e.1 ∉ keys (t ++ [(key, node)]) := by
  intro e he hm
  rw [keys, List.map_append, List.mem_append] at hm
  rcases hm with hm | hm
  · exact hd e he hm
  · exact hk (List.mem_map.2 ⟨e, he, by simpa using hm⟩)

theorem leads_plainLines {frames : List Frame} {t : Tree} {es : List (String × Toml)}
    (hn : (es.map (·.1)).Nodup) (hd : ∀ e ∈ es, e.1 ∉ keys t)
    (h : ∀ e ∈ es, ReadsBack (maxDepth - 1) e.2) :
    Leads ⟨plug frames t, pathOf frames⟩ ((writeEntries es).flatMap (· ++ ['\n']))
      ⟨plug frames (t ++ es.map fun e => (e.1, .value e.2)), pathOf frames⟩ := by
  rw [writeEntries_eq_map]
  induction es generalizing t with
  | nil => simpa using Leads.refl _
  | cons e es ih =>
    obtain ⟨key, v⟩ := e
    rw [List.map_cons, List.nodup_cons] at hn
    have line : Leads ⟨plug frames t, pathOf frames⟩ (writeEntry (key, v) ++ ['\n'])
        ⟨plug frames (t ++ [(key, .value v)]), pathOf frames⟩ := by
      refine .line (by simp) fun rest => ?_
      rw [List.append_assoc]
      exact Reading.line?_entry (hd _ List.mem_cons_self) (h _ List.mem_cons_self) rest
    have rest := ih hn.2
      (fresh_rest hn.1 (fun f hf => hd f (List.mem_cons_of_mem _ hf)) (.value v))
      fun f hf => h f (List.mem_cons_of_mem _ hf)
    rw [List.append_assoc] at rest
    exact line.trans rest

/-! ### Blocks -/

/-- The blocks of a value under a new key add it to the inner table, with so many levels of tables
below it. -/
def Grows (n : Nat) (v : Toml) : Prop :=
  ∀ (frames : List Frame) (t : Tree) (key : String) (header : List String), key ∉ keys t →
    frames.length + n + 1 ≤ maxDepth → ∃ header', Follows ⟨plug frames t, header⟩
      (valueBlocks (pathOf frames ++ [key]) v) ⟨plug frames (t ++ [(key, readNode v)]), header'⟩

theorem follows_values {n : Nat} {es : List (String × Toml)} (h : ∀ e ∈ es, Grows n e.2)
    (hn : (es.map (·.1)).Nodup) {frames : List Frame} (hl : frames.length + n + 1 ≤ maxDepth)
    {t : Tree} (hd : ∀ e ∈ es, e.1 ∉ keys t) (header : List String) :
    ∃ header', Follows ⟨plug frames t, header⟩
      (es.flatMap fun e => valueBlocks (pathOf frames ++ [e.1]) e.2)
      ⟨plug frames (t ++ es.map fun e => (e.1, readNode e.2)), header'⟩ := by
  induction es generalizing t header with
  | nil => exact ⟨header, by simpa using Follows.nil _⟩
  | cons e es ih =>
    obtain ⟨key, v⟩ := e
    rw [List.map_cons, List.nodup_cons] at hn
    obtain ⟨between, first⟩ :=
      h _ List.mem_cons_self frames t key header (hd _ List.mem_cons_self) hl
    obtain ⟨header', rest⟩ := ih (fun f hf => h f (List.mem_cons_of_mem _ hf)) hn.2
      (fresh_rest hn.1 (fun f hf => hd f (List.mem_cons_of_mem _ hf)) (readNode v)) between
    rw [List.append_assoc] at rest
    exact ⟨header', first.append rest⟩

/-- What is known of the entries of a table: its keys, its plain values and its blocks. -/
structure Entries (n : Nat) (es : List (String × Toml)) : Prop where
  nodup : (es.map (·.1)).Nodup
  plain : ∀ e ∈ es, isPlain e.2 = true → ReadsBack (maxDepth - 1) e.2
  grows : ∀ e ∈ es, isPlain e.2 = false → Grows n e.2

section Table

variable {n : Nat} {es : List (String × Toml)} (h : Entries n es) (frames : List Frame)
include h

/-- The lines of its plain values. -/
theorem Entries.leads :
    Leads ⟨plug frames [], pathOf frames⟩ (plainLines es)
      ⟨plug frames ((es.filter (isPlain ·.2)).map fun e => (e.1, readNode e.2)),
        pathOf frames⟩ := by
  have nodup := (nodup_valuesFirst h.nodup).1
  have plain := @leads_plainLines frames [] _ nodup (by simp) fun e he =>
    h.plain e (List.mem_of_mem_filter he) (List.mem_filter.1 he).2
  rw [List.nil_append] at plain
  rwa [List.map_congr_left fun e he => by rw [readNode_of_isPlain (List.mem_filter.1 he).2]]

/-- The blocks of its tables and rows. -/
theorem Entries.follows (hl : frames.length + n + 1 ≤ maxDepth) (header : List String) :
    ∃ header', Follows
      ⟨plug frames ((es.filter (isPlain ·.2)).map fun e => (e.1, readNode e.2)), header⟩
      (entryBlocks (pathOf frames) es)
      ⟨plug frames (nodeEntries (readNode (.table es))), header'⟩ := by
  have grows : ∀ e ∈ es.filter (!isPlain ·.2), Grows n e.2 := fun e he =>
    h.grows e (List.mem_of_mem_filter he) (by simpa using (List.mem_filter.1 he).2)
  obtain ⟨-, nodup, disjoint⟩ := nodup_valuesFirst h.nodup
  rw [entryBlocks_filter, entryBlocks_eq_flatMap, readNode_table, valuesFirst, List.map_append]
  refine follows_values grows nodup hl (fun e he hm => ?_) header
  rw [keys, List.map_map] at hm
  obtain ⟨f, hf, hk⟩ := List.mem_map.1 hm
  exact disjoint f hf e he hk

/-- The blocks of the table under a header that opens it. -/
theorem Entries.followsHeader (hl : frames.length + n + 1 ≤ maxDepth) {r : Reading} {c : Char}
    {s : List Char} (hc : StartsLine c) (ho : Leads r (c :: s) ⟨plug frames [], pathOf frames⟩) :
    ∃ header', Follows r (tableBlocks (c :: s) (pathOf frames) (.table es))
      ⟨plug frames (nodeEntries (readNode (.table es))), header'⟩ := by
  obtain ⟨header', blocks⟩ := h.follows frames hl (pathOf frames)
  exact ⟨header', .cons hc (ho.trans (h.leads frames)) blocks⟩

end Table

theorem Entries.grows_table {n : Nat} {es : List (String × Toml)} (h : Entries n es) :
    Grows (n + 1) (.table es) := by
  intro frames t key header hk hl
  let frame : Frame := ⟨t, key, .table .header, hk⟩
  have path : pathOf (frames ++ [frame]) = pathOf frames ++ [key] := by simp [pathOf, frame]
  have opened : Leads ⟨plug frames t, header⟩ (tableHeader (pathOf frames ++ [key]))
      ⟨plug (frames ++ [frame]) [], pathOf (frames ++ [frame])⟩ := by
    refine .line (by simp [tableHeader]) fun rest => ?_
    rw [path, plug_enter]
    exact Reading.line?_tableHeader (by rw [length_pathOf]; omega) (openTable?_plug frames hk) rest
  obtain ⟨header', blocks⟩ := h.followsHeader (frames ++ [frame])
    (by rw [List.length_append, List.length_singleton]; omega) (.inl rfl) opened
  rw [path, plug_enter] at blocks
  exact ⟨header', blocks⟩

/-- The blocks of a row under a header that opens it after others. -/
theorem Entries.follows_row {n : Nat} {es : List (String × Toml)} (h : Entries n es)
    {frames : List Frame} (hl : frames.length + n + 2 ≤ maxDepth) {t : Tree} {key : String}
    (hk : key ∉ keys t) {others : List Tree} {r : Reading}
    (ho : r.tree.openRow? (pathOf frames) key =
      some (plug frames (t ++ [(key, .rows ([] :: others))]))) :
    ∃ header, Follows r
      (tableBlocks (rowHeader (pathOf frames ++ [key])) (pathOf frames ++ [key]) (.table es))
      ⟨plug frames (t ++ [(key, .rows (nodeEntries (readNode (.table es)) :: others))]),
        header⟩ := by
  let frame : Frame := ⟨t, key, .row others, hk⟩
  have path : pathOf (frames ++ [frame]) = pathOf frames ++ [key] := by simp [pathOf, frame]
  have opened : Leads r (rowHeader (pathOf frames ++ [key]))
      ⟨plug (frames ++ [frame]) [], pathOf (frames ++ [frame])⟩ := by
    refine .line (by simp [rowHeader]) fun rest => ?_
    rw [path, plug_enter]
    exact Reading.line?_rowHeader (by rw [length_pathOf]; omega) ho rest
  obtain ⟨header, blocks⟩ := h.followsHeader (frames ++ [frame])
    (by rw [List.length_append, List.length_singleton]; omega) (.inl rfl) opened
  rw [path, plug_enter] at blocks
  exact ⟨header, blocks⟩

/-- The first row is opened under a new key, each further one after the rows before it. -/
theorem follows_rows {n : Nat} {es : List (String × Toml)} {rows : List (List (String × Toml))}
    (h : ∀ fs ∈ es :: rows, Entries n fs) {frames : List Frame}
    (hl : frames.length + n + 2 ≤ maxDepth) {t : Tree} {key : String} (hk : key ∉ keys t)
    {others : List Tree} {r : Reading}
    (ho : r.tree.openRow? (pathOf frames) key =
      some (plug frames (t ++ [(key, .rows ([] :: others))]))) :
    ∃ header, Follows r (rowBlocks (pathOf frames ++ [key]) ((es :: rows).map .table))
      ⟨plug frames (t ++ [(key, .rows ((readRows ((es :: rows).map .table)).reverse ++ others))]),
        header⟩ := by
  induction rows generalizing es r others with
  | nil =>
    obtain ⟨header, row⟩ := (h es List.mem_cons_self).follows_row hl hk ho
    exact ⟨header, by simpa [rowBlocks, readRows] using row⟩
  | cons fs rows ih =>
    obtain ⟨between, row⟩ := (h es List.mem_cons_self).follows_row hl hk ho
    obtain ⟨header, rest⟩ := ih (fun gs hg => h gs (List.mem_cons_of_mem _ hg))
      (r := ⟨_, between⟩) (growRow?_plug frames hk (nodeEntries (readNode (.table es)) :: others))
    refine ⟨header, ?_⟩
    have both := row.append rest
    simpa [rowBlocks, readRows] using both

theorem Entries.grows_rows {n : Nat} {es : List (String × Toml)}
    {rows : List (List (String × Toml))} (h : ∀ fs ∈ es :: rows, Entries n fs) :
    Grows (n + 1) (.array ((es :: rows).map .table)) := by
  intro frames t key header hk hl
  obtain ⟨header', blocks⟩ := follows_rows h (by omega) hk (openRow?_plug frames hk)
    (r := ⟨plug frames t, header⟩)
  have isRows : isRows ((es :: rows).map Toml.table) = true := by simp [isRows, isTable]
  rw [List.append_nil] at blocks
  exact ⟨header', by rw [valueBlocks, readNode, if_pos isRows, if_pos isRows]; exact blocks⟩

theorem exists_table {v : Toml} (h : isTable v = true) : ∃ es, v = .table es := by
  cases v <;> simp_all [isTable]

theorem exists_tables {items : List Toml} (h : ∀ v ∈ items, isTable v = true) :
    ∃ rows : List (List (String × Toml)), items = rows.map .table := by
  induction items with
  | nil => exact ⟨[], rfl⟩
  | cons v vs ih =>
    obtain ⟨es, rfl⟩ := exists_table (h v List.mem_cons_self)
    obtain ⟨rows, rfl⟩ := ih fun w hw => h w (List.mem_cons_of_mem _ hw)
    exact ⟨es :: rows, rfl⟩

/-- Rows are tables, and there is a first one. -/
theorem exists_rows {items : List Toml} (h : isRows items = true) :
    ∃ es rows, items = (es :: rows).map .table := by
  simp only [isRows, Bool.and_eq_true, Bool.not_eq_true', List.isEmpty_eq_false_iff,
    List.all_eq_true] at h
  obtain ⟨rows, rfl⟩ := exists_tables h.2
  obtain ⟨es, rows, rfl⟩ := List.exists_cons_of_ne_nil (mt (congrArg (List.map Toml.table)) h.1)
  exact ⟨es, rows, rfl⟩

/-! ### The document -/

theorem Writable.readsBack {n : Nat} {v : Toml} (h : Writable n v) (hv : isPlain v = true) :
    ReadsBack (maxDepth - 1) v := by
  cases h with
  | plain _ reads => exact reads
  | table => simp [isPlain] at hv
  | rows rows => simp [isPlain, rows] at hv

theorem Writable.grows {n : Nat} {v : Toml} (h : Writable n v) :
    (isPlain v = false → Grows n v) ∧ ∀ es, v = .table es → ∃ m, n = m + 1 ∧ Entries m es := by
  induction h with
  | plain hv =>
    refine ⟨fun hn => by simp [hv] at hn, ?_⟩
    rintro es rfl
    simp [isPlain] at hv
  | @table n es nodup entries ih =>
    have entries : Entries n es :=
      ⟨nodup, fun e he => (entries e he).readsBack, fun e he => (ih e he).1⟩
    refine ⟨fun _ => entries.grows_table, ?_⟩
    rintro _ ⟨⟩
    exact ⟨n, rfl, entries⟩
  | @rows n items isRows _ ih =>
    refine ⟨fun _ => ?_, fun es e => by simp at e⟩
    obtain ⟨es, rows, rfl⟩ := exists_rows isRows
    have entries (fs : List (String × Toml)) (hf : fs ∈ es :: rows) :=
      (ih (.table fs) (List.mem_map_of_mem hf)).2 fs rfl
    obtain ⟨m, rfl, -⟩ := entries es List.mem_cons_self
    refine Entries.grows_rows fun fs hf => ?_
    obtain ⟨k, hk, h⟩ := entries fs hf
    rwa [← Nat.succ.inj hk] at h

/-- The first block of a document is empty only if there are no plain values. -/
theorem plainLines_cases (es : List (String × Toml)) :
    plainLines es = [] ∧ es.filter (isPlain ·.2) = [] ∨
      ∃ c s, plainLines es = c :: s ∧ StartsLine c := by
  rw [plainLines, writeEntries_eq_map]
  cases es.filter (isPlain ·.2) with
  | nil => exact .inl ⟨rfl, rfl⟩
  | cons e es =>
    obtain ⟨c, t, hc, front⟩ := exists_writeKey e.1
    exact .inr ⟨c, _, by simp [writeEntry, hc]; rfl, .inr front⟩

theorem read?_render {es : List (String × Toml)} (h : Writable maxDepth (.table es)) :
    read? (render (.table es)) = some (reread (.table es)) := by
  obtain ⟨n, depth, entries⟩ := h.grows.2 es rfl
  have lines := entries.leads []
  obtain ⟨header, blocks⟩ := entries.follows [] (by rw [depth]; simp) []
  simp only [pathOf, List.map_nil, plug] at lines blocks
  have follows : Follows {} ((tableBlocks [] [] (.table es)).filter (!·.isEmpty))
      ⟨nodeEntries (readNode (.table es)), header⟩ := by
    rw [tableBlocks, List.nil_append]
    rcases plainLines_cases es with ⟨empty, none⟩ | ⟨c, s, hc, starts⟩
    · rw [none] at blocks
      rw [empty, List.filter_cons_of_neg (by simp), blocks.filter]
      exact blocks
    · rw [hc] at lines ⊢
      rw [List.filter_cons_of_pos (by simp), blocks.filter]
      exact .cons starts lines blocks
  rw [read?, render, String.toList_ofList, follows.dropByteOrderMark, follows.leads.linesFor]
  rw [reread, readNode_table]
  rfl

end Campaign.Toml
