import Campaign.Toml.TextReader
import Mathlib.Data.Bool.Basic
import Mathlib.Data.Option.Basic
import Mathlib.Order.Lattice
import Mathlib.Tactic.SplitIfs

/-!
# Texts read back

A written text is read back, whatever its characters and whichever of the five forms it is written
in. What follows it may not start with a quote or an apostrophe, because up to two of them in front
of a closing mark of three belong to the text.

Each reader undoes one character at a time: an escape, a character that stands for itself, and in
the long forms a run of at most two marks, which is read only once the character after it shows
that it closes nothing.

## Main statements

* `splitBasic?_escape`, `splitLongBasic?_escape`, `splitLongLiteral?_append`: one form each;
* `split?_write`: a written text.
-/

namespace Campaign.Toml.Text

/-- A result of a reader with characters in front of its text. -/
def prepend (s : List Char) (p : List Char × List Char) : List Char × List Char := (s ++ p.1, p.2)

@[simp] theorem prepend_mk (s text rest : List Char) :
    prepend s (text, rest) = (s ++ text, rest) := rfl

/-! ### Characters -/

/-- A character that does not stand for itself has a number of two hexadecimal digits. -/
theorem toNat_lt_of_not_isPlainChar {c : Char} (h : isPlainChar c = false) : c.toNat < 0x80 := by
  simp only [isPlainChar, Bool.or_eq_false_iff, Bool.and_eq_false_imp, decide_eq_false_iff_not,
    decide_eq_true_eq, ne_eq, Decidable.not_not] at h
  omega

theorem toNat_lt_of_needsEscape {long : Bool} {c : Char} (h : needsEscape long c = true) :
    c.toNat < 0x80 := by
  by_cases hc : c = '\t' ∨ c = '\\' ∨ c = '\n'
  · rcases hc with rfl | rfl | rfl <;> decide
  · simp only [not_or] at hc
    exact toNat_lt_of_not_isPlainChar (by simpa [needsEscape, hc] using h)

theorem of_not_needsEscape {long : Bool} {c : Char} (h : needsEscape long c = false) :
    c ≠ '\\' ∧ (c = '\n' ∧ long = true ∨ isPlainChar c = true) := by
  simp only [needsEscape, Bool.or_eq_false_iff, decide_eq_false_iff_not] at h
  refine ⟨h.1.2, ?_⟩
  by_cases hc : c = '\n'
  · exact .inl ⟨hc, by simpa [hc] using h.2⟩
  · exact .inr (by simpa [hc] using h.2)

/-! ### Escapes -/

/-- An escape is one of two kinds: a letter that the table of short escapes gives back and that no
reader takes for anything else, or the number of the character in four digits. -/
theorem escapeChar_cases {c : Char} (h : c.toNat < 0x80) :
    (∃ letter, escapeChar c = ['\\', letter] ∧ shortEscape? letter = some c ∧
        letter ∉ ['u', 'U', ' ', '\t', '\n', '\r']) ∨
      ∃ w x y z, escapeChar c = ['\\', 'u', w, x, y, z] ∧ numberedChar? [w, x, y, z] = some c := by
  cases hs : shortEscapes.lookup c with
  | none =>
    right
    obtain ⟨w, x, y, z, hd⟩ : ∃ w x y z, Hexadecimal.digits .upper 4 c.toNat = [w, x, y, z] :=
      ⟨_, _, _, _, rfl⟩
    have number : c.toNat % Nat.pow 16 4 = c.toNat := Nat.mod_eq_of_lt (h.trans (by decide))
    have valid : c.toNat.isValidChar := c.valid
    refine ⟨w, x, y, z, by simp [escapeChar, hs, hd], ?_⟩
    simp only [numberedChar?, ← hd, Hexadecimal.read?_digits, number, Option.bind_eq_bind,
      Option.bind_some, if_pos valid, Char.ofNat_toNat]
  | some letter =>
    left
    have table : (shortEscapes.all fun p => shortEscape? p.2 = some p.1 ∧
        p.2 ∉ ['u', 'U', ' ', '\t', '\n', '\r']) = true := by decide
    obtain ⟨before, after, mem, -⟩ := List.lookup_eq_some_iff.1 hs
    have entry := List.all_eq_true.1 table (c, letter) (by simp [mem])
    exact ⟨letter, by simp [escapeChar, hs], of_decide_eq_true entry⟩

/-- An escape starts with a backslash. -/
theorem escapeChar_eq_cons (c : Char) : ∃ s, escapeChar c = '\\' :: s := by
  unfold escapeChar; split <;> exact ⟨_, rfl⟩

/-! ### Between quotes -/

theorem splitBasic?_escapeChar {c : Char} (h : c.toNat < 0x80) (s : List Char) :
    splitBasic? (escapeChar c ++ s) = (splitBasic? s).map (prepend [c]) := by
  rcases escapeChar_cases h with ⟨letter, he, hl, hn⟩ | ⟨w, x, y, z, he, hn⟩
  · simp only [List.mem_cons, not_or] at hn
    rw [he, List.cons_append, List.cons_append, List.nil_append,
      splitBasic?.eq_5 _ _ (fun _ _ _ _ _ h => absurd h hn.1)
        (fun _ _ _ _ _ _ _ _ _ h => absurd h hn.2.1), hl]
    cases splitBasic? s <;> rfl
  · simp only [he, List.cons_append, List.nil_append, splitBasic?, hn]
    cases splitBasic? s <;> rfl

theorem splitBasic?_cons {c : Char} (hq : c ≠ '"') (hb : c ≠ '\\') (hc : isPlainChar c = true)
    (s : List Char) : splitBasic? (c :: s) = (splitBasic? s).map (prepend [c]) := by
  rw [splitBasic?.eq_6 _ _ hq (fun _ _ _ _ _ h => absurd h hb)
    (fun _ _ _ _ _ _ _ _ _ h => absurd h hb) (fun _ _ h => absurd h hb), guard, if_pos ⟨hb, hc⟩]
  cases splitBasic? s <;> rfl

theorem splitBasic?_escape (run : Nat) (s rest : List Char) :
    splitBasic? (escape false run s ++ '"' :: rest) = some (s, rest) := by
  induction s generalizing run with
  | nil => rfl
  | cons c s ih =>
    rw [escape]
    split
    · rename_i hq
      rw [if_neg (by simp), List.append_assoc, splitBasic?_escapeChar (by rw [hq]; decide), ih]
      rfl
    · rename_i hq
      split
      · rename_i he
        rw [List.append_assoc, splitBasic?_escapeChar (toNat_lt_of_needsEscape he), ih]
        rfl
      · rename_i he
        obtain ⟨hb, hc⟩ := of_not_needsEscape (Bool.eq_false_of_not_eq_true he)
        rw [List.cons_append, splitBasic?_cons hq hb (hc.resolve_left (by simp)), ih]
        rfl

/-! ### Runs of marks -/

/-- A run of at most two marks that ends before the closing three belongs to the text, if a lone
mark does. -/
theorem read_marks (read : List Char → Option (List Char × List Char)) (mark : Char)
    (lone : ∀ s, (∀ t, s ≠ mark :: mark :: t) → read (mark :: s) = (read s).map (prepend [mark]))
    {run : Nat} (hr : run ≤ 2) {s : List Char} (hs : s.head? ≠ some mark) :
    read (List.replicate run mark ++ s) =
      (read s).map (prepend (List.replicate run mark)) := by
  have first : ∀ t, s ≠ mark :: t := by rintro t rfl; exact hs rfl
  match run, hr with
  | 0, _ => cases h : read s <;> simp [h, prepend]
  | 1, _ => exact lone s fun t => first _
  | 2, _ =>
    rw [show List.replicate 2 mark ++ s = mark :: mark :: s from rfl,
      lone _ fun t e => first t (List.cons.inj e).2, lone s fun t => first _]
    cases read s <;> rfl

/-- Up to two marks in front of the closing three belong to the text. -/
theorem closing_replicate {mark : Char} {run : Nat} (hr : run ≤ 2) {rest : List Char}
    (h : rest.head? ≠ some mark) :
    closing mark (List.replicate run mark ++ rest) = (List.replicate run mark, rest) := by
  match run, hr, rest with
  | 0, _, [] => rfl
  | 0, _, [a] | 0, _, a :: b :: s => simp_all [closing]
  | 1, _, [] => simp [closing]
  | 1, _, a :: s => simp_all [closing]
  | 2, _, s => simp [closing]

theorem replicate_append_marks (mark : Char) (run : Nat) (rest : List Char) :
    List.replicate run mark ++ ([mark, mark, mark] ++ rest) =
      mark :: mark :: mark :: (List.replicate run mark ++ rest) := by
  rw [← List.append_assoc, show [mark, mark, mark] = List.replicate 3 mark from rfl,
    List.replicate_append_replicate, Nat.add_comm, ← List.replicate_append_replicate]
  rfl

/-! ### Between three quotes -/

theorem splitLongBasic?_escapeChar {c : Char} (h : c.toNat < 0x80) (s : List Char) :
    splitLongBasic? false (escapeChar c ++ s) =
      (splitLongBasic? false s).map (prepend [c]) := by
  rcases escapeChar_cases h with ⟨letter, he, hl, hn⟩ | ⟨w, x, y, z, he, hn⟩
  · simp only [List.mem_cons, not_or] at hn
    have ends : endsLine (letter :: s) = false := by simp [endsLine, hn]
    rw [he, List.cons_append, List.cons_append, List.nil_append,
      splitLongBasic?.eq_6 _ _ _ (fun _ _ _ _ _ h => absurd h hn.1)
        (fun _ _ _ _ _ _ _ _ _ h => absurd h hn.2.1), ends, hl]
    cases splitLongBasic? false s <;> rfl
  · simp only [he, List.cons_append, List.nil_append, splitLongBasic?, hn]
    cases splitLongBasic? false s <;> rfl

/-- A character that stands for itself, also a quote that two others do not follow. -/
theorem splitLongBasic?_cons {c : Char} (hb : c ≠ '\\') (hc : c = '\n' ∨ isPlainChar c = true)
    {s : List Char} (hq : c = '"' → ∀ t, s ≠ '"' :: '"' :: t) :
    splitLongBasic? false (c :: s) = (splitLongBasic? false s).map (prepend [c]) := by
  have hr : c ≠ '\r' := by rintro rfl; revert hc; decide
  rw [splitLongBasic?.eq_7 _ _ _ (fun t h => hq h t) (fun _ h => absurd h hr)
    (fun _ _ _ _ _ h => absurd h hb) (fun _ _ _ _ _ _ _ _ _ h => absurd h hb)
    (fun _ _ h => absurd h hb), guard, if_pos ⟨hb, hc⟩]
  cases splitLongBasic? false s <;> rfl

theorem splitLongBasic?_escape {run : Nat} (hr : run ≤ 2) (s : List Char) {rest : List Char}
    (h : rest.head? ≠ some '"') :
    splitLongBasic? false
        (List.replicate run '"' ++ (escape true run s ++ (['"', '"', '"'] ++ rest))) =
      some (List.replicate run '"' ++ s, rest) := by
  have marks {run : Nat} (hr : run ≤ 2) {s : List Char} (hs : s.head? ≠ some '"') :=
    read_marks (splitLongBasic? false) '"'
      (fun s hs => splitLongBasic?_cons (by decide) (.inr (by decide)) fun _ => hs) hr hs
  induction s generalizing run with
  | nil =>
    rw [escape, List.nil_append, replicate_append_marks, splitLongBasic?, closing_replicate hr h,
      List.append_nil]
  | cons c s ih =>
    have reread := ih (Nat.zero_le 2)
    simp only [List.replicate_zero, List.nil_append] at reread
    by_cases hq : c = '"'
    · subst hq
      rw [show escape true run ('"' :: s) = if run < 2 then '"' :: escape true (run + 1) s
        else escapeChar '"' ++ escape true 0 s by simp [escape]]
      split
      · -- the quote makes the run longer
        rename_i hlt
        simpa [List.replicate_succ'] using @ih (run + 1) hlt
      · obtain ⟨t, ht⟩ := escapeChar_eq_cons '"'
        rw [marks hr (by simp [ht]), List.append_assoc, splitLongBasic?_escapeChar (by decide),
          reread]
        rfl
    · rw [escape, if_neg hq]
      split
      · rename_i he
        obtain ⟨t, ht⟩ := escapeChar_eq_cons c
        rw [marks hr (by simp [ht]), List.append_assoc,
          splitLongBasic?_escapeChar (toNat_lt_of_needsEscape he), reread]
        rfl
      · rename_i he
        obtain ⟨hb, hc⟩ := of_not_needsEscape (Bool.eq_false_of_not_eq_true he)
        rw [marks hr (by simpa using hq), List.cons_append,
          splitLongBasic?_cons hb (hc.imp_left And.left) (fun e => absurd e hq), reread]
        rfl

/-! ### Between three apostrophes -/

/-- A character that stands for itself, also an apostrophe that two others do not follow. -/
theorem splitLongLiteral?_cons {c : Char} (hc : c = '\n' ∨ isPlainChar c = true)
    {s : List Char} (hq : c = '\'' → ∀ t, s ≠ '\'' :: '\'' :: t) :
    splitLongLiteral? (c :: s) = (splitLongLiteral? s).map (prepend [c]) := by
  have hr : c ≠ '\r' := by rintro rfl; revert hc; decide
  rw [splitLongLiteral?.eq_4 _ _ (fun t h => hq h t) (fun _ h => absurd h hr), guard, if_pos hc]
  cases splitLongLiteral? s <;> rfl

/-- The present run of a character and its longest run, after one more character. -/
def countRun (c : Char) (p : Nat × Nat) (d : Char) : Nat × Nat :=
  let run := if d = c then p.1 + 1 else 0
  (run, max run p.2)

theorem longestRun_eq (c : Char) (s : List Char) :
    longestRun c s = (s.foldl (countRun c) (0, 0)).2 := rfl

theorem le_foldl_countRun (c : Char) (s : List Char) (p : Nat × Nat) :
    p.2 ≤ (s.foldl (countRun c) p).2 := by
  induction s generalizing p with
  | nil => exact Nat.le_refl _
  | cons d s ih => exact (Nat.le_max_right _ _).trans (ih (countRun c p d))

/-- A character that occurs has a run. -/
theorem longestRun_pos {c : Char} {s : List Char} (h : c ∈ s) : 0 < longestRun c s := by
  obtain ⟨before, after, rfl⟩ := List.append_of_mem h
  rw [longestRun_eq, List.foldl_append, List.foldl_cons]
  refine lt_of_lt_of_le ?_ (le_foldl_countRun c after _)
  simp [countRun]

theorem splitLongLiteral?_append {p : Nat × Nat} (hp : p.1 ≤ 2) {s : List Char}
    (hv : isVerbatim s = true) (hr : (s.foldl (countRun '\'') p).2 ≤ 2) {rest : List Char}
    (h : rest.head? ≠ some '\'') :
    splitLongLiteral? (List.replicate p.1 '\'' ++ (s ++ (['\'', '\'', '\''] ++ rest))) =
      some (List.replicate p.1 '\'' ++ s, rest) := by
  have marks {run : Nat} (hr : run ≤ 2) {s : List Char} (hs : s.head? ≠ some '\'') :=
    read_marks splitLongLiteral? '\''
      (fun s hs => splitLongLiteral?_cons (.inr (by decide)) fun _ => hs) hr hs
  induction s generalizing p with
  | nil =>
    rw [List.nil_append, replicate_append_marks, splitLongLiteral?, closing_replicate hp h,
      List.append_nil]
  | cons c s ih =>
    rw [List.foldl_cons] at hr
    obtain ⟨hc, hv⟩ : (c = '\n' ∨ isPlainChar c = true) ∧ isVerbatim s = true := by
      simpa [isVerbatim] using hv
    have longest := (le_foldl_countRun '\'' s (countRun '\'' p c)).trans hr
    have reread := ih (p := countRun '\'' p c) ((Nat.le_max_left _ _).trans longest) hv hr
    by_cases hq : c = '\''
    · -- the apostrophe makes the run longer
      simpa [countRun, hq, List.replicate_succ'] using reread
    · simp only [countRun, if_neg hq, List.replicate_zero, List.nil_append] at reread
      rw [marks hp (by simpa using hq), List.cons_append,
        splitLongLiteral?_cons hc fun e => absurd e hq, reread]
      rfl

/-! ### All forms -/

/-- An escaped text that is not empty starts with a backslash or with its own first character, and
with that one only if it needs no escape. -/
theorem escape_cons_head (long : Bool) (run : Nat) (c : Char) (s : List Char) :
    ∃ d t, escape long run (c :: s) = d :: t ∧
      (d = '\\' ∨ d = c ∧ (c = '"' → long = true) ∧ needsEscape long c = false) := by
  obtain ⟨e, he⟩ := escapeChar_eq_cons c
  by_cases hq : c = '"'
  · by_cases hr : run < if long then 2 else 0
    · have hl : long = true := by by_contra hl; simp [hl] at hr
      exact ⟨c, escape long (run + 1) s, by rw [escape, if_pos hq, if_pos hr],
        .inr ⟨rfl, fun _ => hl, by rw [hq, hl]; decide⟩⟩
    · exact ⟨'\\', _, by rw [escape, if_pos hq, if_neg hr, he]; rfl, .inl rfl⟩
  · by_cases hn : needsEscape long c = true
    · exact ⟨'\\', _, by rw [escape, if_neg hq, if_pos hn, he]; rfl, .inl rfl⟩
    · exact ⟨c, escape long 0 s, by rw [escape, if_neg hq, if_neg hn],
        .inr ⟨rfl, fun e => absurd e hq, Bool.eq_false_of_not_eq_true hn⟩⟩

/-- What is known of a text from the form it is written in. -/
theorem form_cases (s : List Char) :
    form s = .basic ∨ form s = .longBasic ∨
      form s = .literal ∧ s ≠ [] ∧ (∀ c ∈ s, c ≠ '\'' ∧ isPlainChar c = true) ∨
      form s = .longLiteral ∧ isVerbatim s = true ∧ longestRun '\'' s ≤ 2 := by
  simp only [form]
  split_ifs with hb hl hb' hl'
  · exact .inl rfl
  · simp only [Bool.and_eq_true, Bool.not_eq_true', decide_eq_true_eq] at hl
    refine .inr (.inr (.inl ⟨rfl, ?_, fun c hc => ⟨?_, ?_⟩⟩))
    · rintro rfl; exact hb (by decide)
    · rintro rfl; exact absurd hl.2 (longestRun_pos hc).ne'
    · have verbatim := List.all_eq_true.1 hl.1.1 c hc
      have feed : c ≠ '\n' := by rintro rfl; simpa [hc] using hl.1.2
      simpa [feed] using verbatim
  · exact .inr (.inl rfl)
  · simp only [Bool.and_eq_true, decide_eq_true_eq] at hl'
    exact .inr (.inr (.inr ⟨rfl, hl'⟩))
  · exact .inr (.inl rfl)
  · exact .inl rfl

/-- The line feed in front of a text of several lines is dropped, and nothing else is. -/
theorem dropBreak_opening {s t : List Char}
    (h : ∀ c ∈ t.head?, c ≠ '\r' ∧ (c = '\n' → c ∈ s)) : dropBreak (opening s ++ t) = t := by
  unfold opening
  split
  · rfl
  · rename_i hn
    match t with
    | [] => rfl
    | c :: t =>
      have hc := h c rfl
      refine dropBreak.eq_3 _ (fun u e => hn ?_) fun u e => hc.1 (List.cons.inj e).1
      have feed := (List.cons.inj e).1
      simpa [feed] using hc.2 feed

theorem split?_quote {s : List Char} (h : ∀ t, s ≠ '"' :: '"' :: t) :
    split? ('"' :: s) = splitBasic? s :=
  split?.eq_3 _ (fun t e => h t (List.cons.inj e).2) fun _ e => by simp at e

theorem split?_apostrophe {s : List Char} (h : s.head? ≠ some '\'') :
    split? ('\'' :: s) = splitLiteral? s :=
  split?.eq_3 _ (fun _ e => by simp at e) fun t e => by simp [(List.cons.inj e).2] at h

theorem split?_basic (s : List Char) {rest : List Char} (hq : rest.head? ≠ some '"') :
    split? ('"' :: (escape false 0 s ++ '"' :: rest)) = some (s, rest) := by
  rw [split?_quote, splitBasic?_escape]
  intro t
  cases s with
  | nil =>
    intro e
    rw [(List.cons.inj e).2] at hq
    exact hq rfl
  | cons c s =>
    obtain ⟨d, u, hd, h⟩ := escape_cons_head false 0 c s
    rw [hd]
    rintro e
    obtain rfl := (List.cons.inj e).1
    rcases h with h | ⟨rfl, h, -⟩
    · exact absurd h (by decide)
    · exact absurd (h rfl) (by decide)

theorem split?_longBasic (s : List Char) {rest : List Char} (hq : rest.head? ≠ some '"') :
    split? (['"', '"', '"'] ++ (opening s ++ (escape true 0 s ++ (['"', '"', '"'] ++ rest)))) =
      some (s, rest) := by
  show splitLongBasic? false (dropBreak (opening s ++ _)) = _
  rw [dropBreak_opening]
  · exact splitLongBasic?_escape (Nat.zero_le 2) s hq
  cases s with
  | nil => simp [escape]
  | cons c s =>
    obtain ⟨d, u, hd, h⟩ := escape_cons_head true 0 c s
    simp only [hd, List.cons_append, List.head?_cons, Option.mem_some_iff, forall_eq']
    rcases h with rfl | ⟨rfl, -, hn⟩
    · exact ⟨by decide, fun e => absurd e (by decide)⟩
    · exact ⟨by rintro rfl; revert hn; decide, fun _ => List.mem_cons_self⟩

theorem split?_longLiteral {s : List Char} (hv : isVerbatim s = true)
    (hr : longestRun '\'' s ≤ 2) {rest : List Char} (ha : rest.head? ≠ some '\'') :
    split? (['\'', '\'', '\''] ++ (opening s ++ (s ++ (['\'', '\'', '\''] ++ rest)))) =
      some (s, rest) := by
  show splitLongLiteral? (dropBreak (opening s ++ _)) = _
  rw [dropBreak_opening]
  · exact splitLongLiteral?_append (Nat.zero_le 2) hv hr ha
  cases s with
  | nil => simp
  | cons c s =>
    simp only [List.cons_append, List.head?_cons, Option.mem_some_iff, forall_eq']
    refine ⟨?_, fun _ => List.mem_cons_self⟩
    rintro rfl
    simp [not_isVerbatim_of_mem (List.mem_cons_self (a := '\r')) (by decide) (by decide)] at hv

/-- A written text is read back. -/
theorem split?_write (s : List Char) {rest : List Char} (hq : rest.head? ≠ some '"')
    (ha : rest.head? ≠ some '\'') : split? (write s ++ rest) = some (s, rest) := by
  rcases form_cases s with hf | hf | ⟨hf, hs, hc⟩ | ⟨hf, hv, hr⟩
  · simpa [write, hf, enclose] using split?_basic s hq
  · simpa [write, hf, enclose] using split?_longBasic s hq
  · obtain ⟨c, t, rfl⟩ := List.exists_cons_of_ne_nil hs
    have first : (c :: t ++ '\'' :: rest).head? ≠ some '\'' := by
      simpa using (hc c List.mem_cons_self).1
    simpa [write, hf, enclose] using (split?_apostrophe first).trans (splitLiteral?_append rest hc)
  · simpa [write, hf, enclose] using split?_longLiteral hv hr ha

end Campaign.Toml.Text
