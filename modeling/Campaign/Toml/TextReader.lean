import Campaign.Toml.Text

/-!
# Reading text in TOML

* `Text.splitLine?`: the text at the front of a line, in quotes or in apostrophes;
* `Text.split?`: the text at the front of a value, in any of the four enclosures.

## Main statements

* `splitLiteral?_append`: a text without apostrophes and control characters is read back from
  between apostrophes.
-/

namespace Campaign.Toml.Text

/-- The character of an escape by a letter. -/
def shortEscape? (letter : Char) : Option Char :=
  (shortEscapes.find? (·.2 = letter)).map (·.1)

/-- The character with a number in hexadecimal digits. -/
def numberedChar? (digits : List Char) : Option Char := do
  let n ← Hexadecimal.read? digits
  if n.isValidChar then some (Char.ofNat n) else none

/-- The text up to a quote that closes it, and what follows the quote. -/
def splitBasic? : List Char → Option (List Char × List Char)
  | [] => none
  | '"' :: s => some ([], s)
  | '\\' :: 'u' :: a :: b :: c :: d :: s => do
    let c ← numberedChar? [a, b, c, d]
    let (text, rest) ← splitBasic? s
    return (c :: text, rest)
  | '\\' :: 'U' :: a :: b :: c :: d :: e :: f :: g :: h :: s => do
    let c ← numberedChar? [a, b, c, d, e, f, g, h]
    let (text, rest) ← splitBasic? s
    return (c :: text, rest)
  | '\\' :: letter :: s => do
    let c ← shortEscape? letter
    let (text, rest) ← splitBasic? s
    return (c :: text, rest)
  | c :: s => do
    guard (c ≠ '\\' ∧ isPlainChar c)
    let (text, rest) ← splitBasic? s
    return (c :: text, rest)

/-- The text up to an apostrophe that closes it, and what follows the apostrophe. -/
def splitLiteral? : List Char → Option (List Char × List Char)
  | [] => none
  | c :: s =>
    if c = '\'' then some ([], s)
    else if isPlainChar c then do
      let (text, rest) ← splitLiteral? s
      return (c :: text, rest)
    else none

theorem splitLiteral?_append {s : List Char} (rest : List Char)
    (h : ∀ c ∈ s, c ≠ '\'' ∧ isPlainChar c = true) :
    splitLiteral? (s ++ '\'' :: rest) = some (s, rest) := by
  induction s with
  | nil => simp [splitLiteral?]
  | cons c s ih =>
    have hc := h c List.mem_cons_self
    simp [splitLiteral?, hc.1, hc.2, ih fun d hd => h d (List.mem_cons_of_mem c hd)]

/-! ### Long texts -/

/-- Two marks in front of the three that close a long text belong to the text, and so does one. -/
def closing (mark : Char) : List Char → List Char × List Char
  | a :: b :: s =>
    if a = mark then if b = mark then ([a, b], s) else ([a], b :: s) else ([], a :: b :: s)
  | [a] => if a = mark then ([a], []) else ([], [a])
  | [] => ([], [])

/-- Whether a line ends after blanks. -/
def endsLine (s : List Char) : Bool :=
  match s.dropWhile fun c => c = ' ' || c = '\t' with
  | '\n' :: _ => true
  | '\r' :: '\n' :: _ => true
  | _ => false

/-- The text up to three quotes that close it. A backslash at the end of a line makes reading
skip blanks and line breaks. -/
def splitLongBasic? (skipping : Bool) : List Char → Option (List Char × List Char)
  | [] => none
  | '"' :: '"' :: '"' :: s => some (closing '"' s)
  | '\r' :: '\n' :: s => do
    let (text, rest) ← splitLongBasic? skipping s
    return (if skipping then text else '\n' :: text, rest)
  | '\\' :: 'u' :: a :: b :: c :: d :: s => do
    let c ← numberedChar? [a, b, c, d]
    let (text, rest) ← splitLongBasic? false s
    return (c :: text, rest)
  | '\\' :: 'U' :: a :: b :: c :: d :: e :: f :: g :: h :: s => do
    let c ← numberedChar? [a, b, c, d, e, f, g, h]
    let (text, rest) ← splitLongBasic? false s
    return (c :: text, rest)
  | '\\' :: letter :: s => do
    if endsLine (letter :: s) then splitLongBasic? true (letter :: s)
    else
      let c ← shortEscape? letter
      let (text, rest) ← splitLongBasic? false s
      return (c :: text, rest)
  | c :: s => do
    guard (c ≠ '\\' ∧ (c = '\n' ∨ isPlainChar c))
    if skipping && (c = ' ' || c = '\t' || c = '\n') then splitLongBasic? true s
    else
      let (text, rest) ← splitLongBasic? false s
      return (c :: text, rest)

/-- The text up to three apostrophes that close it. -/
def splitLongLiteral? : List Char → Option (List Char × List Char)
  | [] => none
  | '\'' :: '\'' :: '\'' :: s => some (closing '\'' s)
  | '\r' :: '\n' :: s => do
    let (text, rest) ← splitLongLiteral? s
    return ('\n' :: text, rest)
  | c :: s => do
    guard (c = '\n' ∨ isPlainChar c)
    let (text, rest) ← splitLongLiteral? s
    return (c :: text, rest)

/-- A text without the line break at its front. -/
def dropBreak : List Char → List Char
  | '\n' :: s => s
  | '\r' :: '\n' :: s => s
  | s => s

/-! ### Any text -/

/-- A text of one line, from its opening mark. -/
def splitLine? : List Char → Option (List Char × List Char)
  | '"' :: s => splitBasic? s
  | '\'' :: s => splitLiteral? s
  | _ => none

/-- A text from its opening mark. -/
def split? : List Char → Option (List Char × List Char)
  | '"' :: '"' :: '"' :: s => splitLongBasic? false (dropBreak s)
  | '\'' :: '\'' :: '\'' :: s => splitLongLiteral? (dropBreak s)
  | s => splitLine? s

end Campaign.Toml.Text
