import Campaign.Hexadecimal
import Campaign.Toml.Basic

/-!
# Writing text in TOML

A text is written in the first of five forms that fits: between quotes, between apostrophes,
between three quotes, between three apostrophes, or escaped.

* `Text.form`: the form of a text;
* `Text.write`: a text as written.

## Main statements

* `not_isVerbatim_of_mem`: a text with a control character is never written between apostrophes.
-/

namespace Campaign.Toml.Text

/-- What encloses a text. -/
inductive Form where
  /-- One quote, with escapes. -/
  | basic
  /-- One apostrophe, all characters as they are. -/
  | literal
  /-- Three quotes, with escapes and line breaks. -/
  | longBasic
  /-- Three apostrophes, all characters as they are, with line breaks. -/
  | longLiteral
  deriving DecidableEq, Repr

/-- The length of the longest run of a character. -/
def longestRun (c : Char) (s : List Char) : Nat :=
  (s.foldl (fun (run, longest) d =>
    let run := if d = c then run + 1 else 0
    (run, max run longest)) (0, 0)).2

/-- Whether all characters but line feeds stand for themselves. -/
def isVerbatim (s : List Char) : Bool := s.all fun c => c = '\n' || isPlainChar c

theorem not_isVerbatim_of_mem {c : Char} {s : List Char} (h : c ∈ s) (hn : c ≠ '\n')
    (hc : isPlainChar c = false) : isVerbatim s = false := by
  simp only [isVerbatim, List.all_eq_false]
  exact ⟨c, h, by simp [hn, hc]⟩

/-- The first form that fits: without escapes if possible, on one line if possible. -/
def form (s : List Char) : Form :=
  let feeds := s.contains '\n'
  let escapes := s.contains '\\'
  let verbatim := isVerbatim s
  if verbatim && !feeds && !escapes && longestRun '"' s = 0 then .basic
  else if verbatim && !feeds && longestRun '\'' s = 0 then .literal
  else if verbatim && !escapes && longestRun '"' s ≤ 2 then .longBasic
  else if verbatim && longestRun '\'' s ≤ 2 then .longLiteral
  else if feeds then .longBasic
  else .basic

/-! ### Escapes -/

/-- The characters whose escape is a backslash and a letter. -/
def shortEscapes : List (Char × Char) :=
  [('\x08', 'b'), ('\t', 't'), ('\n', 'n'), ('\x0c', 'f'), ('\r', 'r'), ('"', '"'), ('\\', '\\')]

/-- A character escaped. -/
def escapeChar (c : Char) : List Char :=
  match shortEscapes.lookup c with
  | some letter => ['\\', letter]
  | none => '\\' :: 'u' :: Hexadecimal.digits .upper 4 c.toNat

/-- Whether a character needs its escape, other than quotes: all that do not stand for themselves,
the tab and the backslash, and the line feed in a form of one line. -/
def needsEscape (long : Bool) (c : Char) : Bool :=
  c = '\t' || c = '\\' || (if c = '\n' then !long else !isPlainChar c)

/-- A text with its escapes, after a run of quotes that stand for themselves. On one line each
quote is escaped, in a long form each that follows two others. -/
def escape (long : Bool) : Nat → List Char → List Char
  | _, [] => []
  | run, c :: s =>
    if c = '"' then
      if run < (if long then 2 else 0) then c :: escape long (run + 1) s
      else escapeChar c ++ escape long 0 s
    else if needsEscape long c then escapeChar c ++ escape long 0 s
    else c :: escape long 0 s

/-- What a long form puts before a text of several lines: a line feed that is not read. -/
def opening (s : List Char) : List Char := if s.contains '\n' then ['\n'] else []

/-- A text between two marks. -/
def enclose (mark : List Char) (s : List Char) : List Char := mark ++ s ++ mark

/-- A text as written. -/
def write (s : List Char) : List Char :=
  match form s with
  | .basic => enclose ['"'] (escape false 0 s)
  | .literal => enclose ['\''] s
  | .longBasic => enclose ['"', '"', '"'] (opening s ++ escape true 0 s)
  | .longLiteral => enclose ['\'', '\'', '\''] (opening s ++ s)

end Campaign.Toml.Text
