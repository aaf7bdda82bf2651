import Campaign.Command.Parse
import Mathlib.Data.Option.Basic

/-!
# Plain arguments

The format in front, then the name of the command, then words: arguments that are written so are
taken apart in two steps, up to the name and behind it.

* `formatArguments`: the arguments that ask for a format.

## Main statements

* `parse?_formatArguments`: a command behind the format.
* `parse?_words`: a command with words behind it.
-/

namespace Campaign

open Arguments

/-- The arguments that ask for a format; none where the usual one is meant. -/
def formatArguments : Option Format → List String
  | some f => ["--format", f.name]
  | none => []

/-! ### Up to the name of the command -/

theorem scan?_stop (specs : List Spec) {a : String} (rest : List String)
    (h : a.toList.head? ≠ some '-') : scan? specs true (a :: rest) = some ([], a :: rest) := by
  have none_open : a.toList ≠ ['-', '-'] := by intro e; simp [e] at h
  have no_option : isOption a.toList = false := by
    unfold isOption
    split
    · rename_i e; simp [e] at h
    · rfl
  rw [scan?, if_neg none_open, no_option]
  rfl

theorem scan?_format (f : Format) (rest : List String) :
    scan? programSpecs true ("--format" :: f.name :: rest) =
      (scan? programSpecs true rest).map fun (items, left) =>
        (.option "format" (some f.name) :: items, left) := by
  have hopen : "--format".toList ≠ ['-', '-'] := by decide
  have hoption : isOption "--format".toList = true := by decide
  have hspec : option? programSpecs "--format".toList =
      some (⟨"format", none, .value, false, false⟩, none) := rfl
  have hvalue : isValue .value f.name = true := by cases f <;> rfl
  rw [scan?, if_neg hopen, if_neg (by rw [hoption]; decide), hspec]
  simp only [hvalue, if_true]
  rfl

/-- What is found in the arguments that ask for a format. -/
def formatItems (f : Option Format) : Items := f.toList.map fun f => .option "format" (some f.name)

theorem scan?_formatArguments (f : Option Format) {name : String} (rest : List String)
    (h : name.toList.head? ≠ some '-') :
    scan? programSpecs true (formatArguments f ++ name :: rest) =
      some (formatItems f, name :: rest) := by
  cases f with
  | none => exact scan?_stop programSpecs rest h
  | some f =>
    rw [formatArguments, List.cons_append, List.cons_append, List.nil_append, scan?_format,
      scan?_stop programSpecs rest h]
    rfl

theorem read?_formatItems (f : Option Format) :
    (formatItems f).read? "format" Format.ofName? .text = some (f.getD .text) := by
  cases f with
  | none => rfl
  | some f => exact Format.ofName?_name f

/-! ### Behind the name -/

section

variable (f : Option Format) {name : String} {specs : List Spec} {command : Command}

/-- **A command behind the format.** -/
theorem parse?_formatArguments {rest : List String} {items : Items}
    (hname : name.toList.head? ≠ some '-') (hspecs : commandSpecs? name = some specs)
    (hrest : scan? (specs ++ sharedSpecs) false rest = some (items, []))
    (hvalid : items.isValid (specs ++ sharedSpecs) = true) (hformat : items.values "format" = [])
    (hdebug : items.has "debug" = false) (hcommand : Command.ofItems? name items = some command) :
    Request.parse? (formatArguments f ++ name :: rest) =
      some (.perform (f.getD .text) false command) := by
  have hbefore : (formatItems f).isValid programSpecs = true := by cases f <;> rfl
  have hversion : (formatItems f).has "version" = false := by cases f <;> rfl
  have hquiet : (formatItems f).has "debug" = false := by cases f <;> rfl
  have hafter : items.read? "format" Format.ofName? (f.getD .text) = some (f.getD .text) := by
    rw [Items.read?, Items.value?, hformat]
    rfl
  rw [Request.parse?, scan?_formatArguments f rest hname]
  simp only [Option.bind_eq_bind, Option.bind_some, Option.pure_def, Bool.false_or,
    Bool.false_eq_true, if_false, hbefore, read?_formatItems, hversion, hspecs, hrest, hvalid,
    hafter, hquiet, hdebug, hcommand]
  rfl

@[simp] theorem words_map_word (words : List String) : Items.words (words.map .word) = words := by
  rw [Items.words, List.filterMap_map]
  exact List.filterMap_some

@[simp] theorem names_map_word (words : List String) : Items.names (words.map .word) = [] := by
  simp [Items.names]

@[simp] theorem has_map_word (words : List String) (option : String) :
    Items.has (words.map .word) option = false := by
  simp [Items.has]

/-- **A command with words behind it.** -/
theorem parse?_words {words : List String} (hname : name.toList.head? ≠ some '-')
    (hspecs : commandSpecs? name = some specs) (hwords : ∀ s ∈ words, s.toList.head? ≠ some '-')
    (hcommand : Command.ofItems? name (words.map .word) = some command) :
    Request.parse? (formatArguments f ++ name :: words) =
      some (.perform (f.getD .text) false command) := by
  have hvalid : Items.isValid (words.map .word) (specs ++ sharedSpecs) = true := by
    simp [Items.isValid]
  have hformat : Items.values (words.map .word) "format" = [] := by simp [Items.values]
  exact parse?_formatArguments f hname hspecs (scan?_words _ words hwords) hvalid hformat
    (has_map_word words "debug") hcommand

end

end Campaign
