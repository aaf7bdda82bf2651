/-!
# Arguments

Arguments are options and words. An option starts with two hyphens and a name, or with a hyphen and
a letter, and may take a value: in the same argument, after an equals sign or right after the
letter, or in the next argument. After an argument of two hyphens all are words.

* `Spec`: an option that there is;
* `scan?`: arguments taken apart;
* `Items.isValid`: no option stands twice, unless it may;
* `Items.value?`, `Items.values`, `Items.words`: what was found.

## Main statements

* `scan?_words`: arguments without hyphens are words.
-/

namespace Campaign.Arguments

/-- What an option takes. -/
inductive Taking where
  | nothing
  | value
  /-- A value that may be a negative number in an argument of its own. -/
  | number
  deriving DecidableEq, Repr

/-- An option. -/
structure Spec where
  name : String
  letter : Option Char := none
  taking : Taking := .value
  /-- Whether it may stand more than once. -/
  repeats : Bool := false
  /-- Whether nothing is read after it. -/
  ends : Bool := false

/-- An option with its value, or a word. -/
inductive Item where
  | option (name : String) (value : Option String)
  | word (s : String)
  deriving DecidableEq, Repr

/-- Arguments taken apart. -/
abbrev Items := List Item

/-! ### Values in arguments of their own -/

/-- Whether a character parts the digits of a number from its exponent. -/
def isExponentMark (c : Char) : Bool := c = 'e' || c = 'E'

/-- Whether a text is digits with at most one point and one exponent mark, the point not in front
and before the mark, the mark neither in front nor at the end. -/
def isNumber (s : List Char) : Bool :=
  let mantissa := s.takeWhile (!isExponentMark ·)
  let exponent := s.dropWhile (!isExponentMark ·)
  let fraction := mantissa.dropWhile Char.isDigit
  (s.isEmpty || s.head?.any Char.isDigit) &&
    (fraction.isEmpty || (fraction.head? = some '.' && (fraction.drop 1).all Char.isDigit)) &&
    (exponent.isEmpty || (1 < exponent.length && (exponent.drop 1).all Char.isDigit))

/-- Whether an argument can be the value of the option before it. -/
def isValue (taking : Taking) (s : String) : Bool :=
  match s.toList with
  | '-' :: rest => rest.isEmpty || (taking = .number && isNumber rest)
  | _ => true

/-! ### Taking arguments apart -/

section

variable (specs : List Spec)

/-- The option with a name or a letter, and the value in the same argument. -/
def option? : List Char → Option (Spec × Option String)
  | '-' :: '-' :: s =>
    let name := String.ofList (s.takeWhile (· ≠ '='))
    let value := match s.dropWhile (· ≠ '=') with
      | [] => none
      | _ :: value => some (String.ofList value)
    (specs.find? (·.name = name)).map (·, value)
  | '-' :: letter :: s =>
    let value := match s with
      | [] => none
      | '=' :: value => some (String.ofList value)
      | value => some (String.ofList value)
    (specs.find? (·.letter = some letter)).map (·, value)
  | _ => none

/-- Whether an argument is an option or an attempt at one. -/
def isOption : List Char → Bool
  | '-' :: _ :: _ => true
  | _ => false

/-- Whether an option that takes no value may have something after it in its argument: after its
letter, if nothing is read any more. -/
def toleratesRest (spec : Spec) (argument : List Char) : Bool :=
  match argument with
  | '-' :: '-' :: _ => false
  | _ => spec.ends

/-- Takes arguments apart. With `stops`, the first word and what follows it are left over. -/
def scan? (stops : Bool) : List String → Option (Items × List String)
  | [] => some ([], [])
  | a :: rest =>
    let s := a.toList
    if s = ['-', '-'] then
      if stops then some ([], []) else some (rest.map .word, [])
    else if !isOption s then
      if stops then some ([], a :: rest)
      else (scan? stops rest).map fun (items, left) => (.word a :: items, left)
    else
      match option? specs s with
      | none => none
      | some (spec, value) =>
        if spec.taking = .nothing then
          if value.isSome && !toleratesRest spec s then none
          else if spec.ends then some ([.option spec.name none], [])
          else (scan? stops rest).map fun (items, left) => (.option spec.name none :: items, left)
        else
          match value with
          | some _ =>
            (scan? stops rest).map fun (items, left) => (.option spec.name value :: items, left)
          | none =>
            match rest with
            | [] => none
            | v :: rest =>
              if isValue spec.taking v then
                (scan? stops rest).map fun (items, left) =>
                  (.option spec.name (some v) :: items, left)
              else none

theorem scan?_words (args : List String) (h : ∀ a ∈ args, a.toList.head? ≠ some '-') :
    scan? specs false args = some (args.map .word, []) := by
  induction args with
  | nil => rfl
  | cons a rest ih =>
    have ha := h a List.mem_cons_self
    have none_open : a.toList ≠ ['-', '-'] := by intro e; simp [e] at ha
    have no_option : isOption a.toList = false := by
      unfold isOption; split
      · rename_i e; simp [e] at ha
      · rfl
    rw [scan?, if_neg none_open]
    simp [no_option, ih fun b hb => h b (List.mem_cons_of_mem a hb)]

end

/-! ### What was found -/

namespace Items

/-- The words. -/
def words (items : Items) : List String :=
  items.filterMap fun
    | .word s => some s
    | .option .. => none

/-- The names of the options. -/
def names (items : Items) : List String :=
  items.filterMap fun
    | .option name _ => some name
    | .word _ => none

/-- The values of an option, in order. -/
def values (items : Items) (name : String) : List String :=
  items.filterMap fun
    | .option n value => if n = name then value else none
    | .word _ => none

/-- The value of an option that stands at most once. -/
def value? (items : Items) (name : String) : Option String := (items.values name).head?

/-- Whether an option stands there. -/
def has (items : Items) (name : String) : Bool := items.names.contains name

/-- Whether no option stands twice that may not. -/
def isValid (items : Items) (specs : List Spec) : Bool :=
  specs.all fun spec => spec.repeats || items.names.count spec.name ≤ 1

/-- The value of an option, read by a function that may refuse it, or a default. -/
def read? {α : Type} (items : Items) (name : String) (read : String → Option α) (default : α) :
    Option α :=
  match items.value? name with
  | some s => read s
  | none => some default

end Items

end Campaign.Arguments
