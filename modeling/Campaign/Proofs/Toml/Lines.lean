import Campaign.Proofs.Toml.Tree
import Campaign.Proofs.Toml.Value
import Campaign.Toml.Reader

/-!
# Lines read back

A written line changes the table of the last header as the tree says, whatever follows it. `Leads`
joins lines into texts, and `Follows` joins blocks of lines into a document with an empty line
between any two of them, which changes nothing.

## Main statements

* `line?_entry`, `line?_tableHeader`, `line?_rowHeader`: the three kinds of lines;
* `Follows.leads`: a document of blocks is read block by block.
-/

namespace Campaign.Toml

open Campaign.Toml.Tree

/-! ### The front of a line -/

/-- A character that starts a line with a header or a key. -/
def StartsLine (c : Char) : Prop := c = '[' ∨ c = '"' ∨ isBareChar c = true

theorem StartsLine.ne {c : Char} (h : StartsLine c) :
    c ∉ [' ', '\t', '#', '\n', '\r', '\uFEFF'] := by
  intro hc
  simp only [List.mem_cons, List.not_mem_nil, or_false] at hc
  rcases hc with rfl | rfl | rfl | rfl | rfl | rfl <;> exact absurd h (by unfold StartsLine; decide)

theorem dropBlanks_startsLine {c : Char} (h : StartsLine c) (s : List Char) :
    dropBlanks (c :: s) = c :: s := by
  have ne := h.ne
  simp only [List.mem_cons, not_or] at ne
  exact dropBlanks_cons s (by simp [isBlank, ne])

/-! ### Lines -/

namespace Reading

theorem splitLineEnd?_break (s : List Char) : splitLineEnd? ('\n' :: s) = some s := rfl

theorem line?_empty (r : Reading) (s : List Char) : r.line? ('\n' :: s) = some (r, s) := rfl

theorem line?_entry {frames : List Frame} {t : Tree} {key : String} (hk : key ∉ keys t)
    {v : Toml} (hv : ReadsBack (maxDepth - 1) v) (s : List Char) :
    line? ⟨plug frames t, pathOf frames⟩ (writeEntry (key, v) ++ '\n' :: s) =
      some (⟨plug frames (t ++ [(key, .value v)]), pathOf frames⟩, s) := by
  obtain ⟨c, u, hc, front⟩ := exists_writeKey key
  have starts : StartsLine c := .inr front
  have ne := starts.ne
  simp only [List.mem_cons, not_or] at ne
  have bracket : c ≠ '[' := by
    rintro rfl; exact absurd front (by decide)
  have split := @splitEntry?_writeEntry key v hv s
  obtain ⟨w, hw⟩ : ∃ w, writeEntry (key, v) ++ '\n' :: s = c :: w := by
    simp [writeEntry, hc]
  rw [hw] at split ⊢
  rw [line?, dropBlanks_startsLine starts]
  simp [ne, entry?, split, insertUnder?_plug frames hk v, splitLineEnd?_break]

theorem line?_tableHeader {r : Reading} {path : List String} {key : String} {tree : Tree}
    (hl : path.length < maxDepth - 1) (ho : r.tree.openTable? path key = some tree)
    (s : List Char) :
    r.line? (tableHeader (path ++ [key]) ++ s) = some (⟨tree, path ++ [key]⟩, s) := by
  have close : dropBlanks (']' :: '\n' :: s) = ']' :: '\n' :: s := rfl
  have split := @splitKeys?_writePath path key hl ']' ('\n' :: s) (by decide) (by simp [close])
  have text : tableHeader (path ++ [key]) ++ s =
      '[' :: (writePath (path ++ [key]) ++ ']' :: '\n' :: s) := by
    simp [tableHeader]
  obtain ⟨c, u, hc, front⟩ := @exists_writePath (path ++ [key]) (by simp)
  have bracket : c ≠ '[' := by
    rintro rfl; exact absurd front (by decide)
  rw [hc, List.cons_append] at split text
  rw [text, line?, dropBlanks_startsLine (.inl rfl)]
  simp [header?, bracket, split, close, ho, splitLineEnd?_break]

theorem line?_rowHeader {r : Reading} {path : List String} {key : String} {tree : Tree}
    (hl : path.length < maxDepth - 1) (ho : r.tree.openRow? path key = some tree)
    (s : List Char) :
    r.line? (rowHeader (path ++ [key]) ++ s) = some (⟨tree, path ++ [key]⟩, s) := by
  have close : dropBlanks (']' :: ']' :: '\n' :: s) = ']' :: ']' :: '\n' :: s := rfl
  have split := @splitKeys?_writePath path key hl ']' (']' :: '\n' :: s) (by decide)
    (by simp [close])
  have text : rowHeader (path ++ [key]) ++ s =
      '[' :: '[' :: (writePath (path ++ [key]) ++ ']' :: ']' :: '\n' :: s) := by
    simp [rowHeader]
  rw [text, line?, dropBlanks_startsLine (.inl rfl)]
  simp [header?, split, close, ho, splitLineEnd?_break]

end Reading

/-! ### Texts and blocks -/

/-- Reading a text leads from one state of the reader to another, whatever follows the text. The
reader has at least one more character as fuel for each one of the text. -/
def Leads (r : Reading) (s : List Char) (r' : Reading) : Prop :=
  ∀ fuel rest, s.length + rest.length ≤ fuel.length →
    ∃ fuel', rest.length ≤ fuel'.length ∧ r.linesFor fuel (s ++ rest) = r'.linesFor fuel' rest

theorem Leads.refl (r : Reading) : Leads r [] r := fun fuel rest hf =>
  ⟨fuel, by simpa using hf, rfl⟩

theorem Leads.trans {r r' r'' : Reading} {s t : List Char} (h : Leads r s r')
    (h' : Leads r' t r'') : Leads r (s ++ t) r'' := by
  intro fuel rest hf
  rw [List.length_append] at hf
  obtain ⟨fuel', hf', e⟩ := h fuel (t ++ rest) (by rw [List.length_append]; omega)
  rw [List.length_append] at hf'
  obtain ⟨fuel'', hf'', e'⟩ := h' fuel' rest (by omega)
  exact ⟨fuel'', hf'', by rw [List.append_assoc, e, e']⟩

theorem Leads.line {r r' : Reading} {s : List Char} (hs : s ≠ [])
    (h : ∀ rest, r.line? (s ++ rest) = some (r', rest)) : Leads r s r' := by
  obtain ⟨c, t, rfl⟩ := List.exists_cons_of_ne_nil hs
  intro fuel rest hf
  obtain ⟨d, fuel, rfl⟩ : ∃ d u, fuel = d :: u :=
    List.exists_cons_of_length_pos (by simp only [List.length_cons] at hf; omega)
  refine ⟨fuel, by simp only [List.length_cons] at hf; omega, ?_⟩
  have step := h rest
  rw [List.cons_append] at step ⊢
  rw [Reading.linesFor, step]
  · rfl
  · simp

/-- A whole text. -/
theorem Leads.linesFor {r r' : Reading} {s : List Char} (h : Leads r s r') :
    r.linesFor s s = some r' := by
  obtain ⟨fuel, -, e⟩ := h s [] (by simp)
  rw [List.append_nil] at e
  rw [e]
  cases fuel <;> rfl

/-- Blocks that are read one after the other. -/
inductive Follows : Reading → List (List Char) → Reading → Prop
  | nil (r : Reading) : Follows r [] r
  | cons {r r' r'' : Reading} {c : Char} {s : List Char} {blocks : List (List Char)} :
    StartsLine c → Leads r (c :: s) r' → Follows r' blocks r'' → Follows r ((c :: s) :: blocks) r''

theorem Follows.append {r r' r'' : Reading} {bs bs' : List (List Char)} (h : Follows r bs r')
    (h' : Follows r' bs' r'') : Follows r (bs ++ bs') r'' := by
  induction h with
  | nil => exact h'
  | cons starts leads _ ih => exact .cons starts leads (ih h')

/-- No block is empty. -/
theorem Follows.filter {r r' : Reading} {bs : List (List Char)} (h : Follows r bs r') :
    bs.filter (!·.isEmpty) = bs := by
  induction h with
  | nil => rfl
  | cons _ _ _ ih => simp [ih]

/-- Empty lines between blocks change nothing. -/
theorem Follows.leads {r r' : Reading} {bs : List (List Char)} (h : Follows r bs r') :
    Leads r (joined ['\n'] bs) r' := by
  induction h with
  | nil r => exact .refl r
  | @cons r r' r'' c s bs starts leads follows ih =>
    cases follows with
    | nil => exact leads
    | cons =>
      rw [joined_cons_cons]
      exact (leads.trans (.line (by simp) fun rest => Reading.line?_empty r' rest)).trans ih

/-- Blocks start with no mark of a byte order. -/
theorem Follows.dropByteOrderMark {r r' : Reading} {bs : List (List Char)} (h : Follows r bs r') :
    dropByteOrderMark (joined ['\n'] bs) = joined ['\n'] bs := by
  cases h with
  | nil => rfl
  | @cons _ _ _ c s bs starts =>
    have ne := starts.ne
    simp only [List.mem_cons, not_or] at ne
    obtain ⟨t, ht⟩ : ∃ t, joined ['\n'] ((c :: s) :: bs) = c :: t := by
      cases bs with
      | nil => exact ⟨s, rfl⟩
      | cons b bs => exact ⟨_, rfl⟩
    rw [ht]
    exact dropByteOrderMark.eq_2 _ fun _ e => ne.2.2.2.2.2.1 (List.cons.inj e).1

end Campaign.Toml
