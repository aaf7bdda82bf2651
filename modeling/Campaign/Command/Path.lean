/-!
# Paths

A path is a text with slashes between its parts. It leads from directory to directory: a part names
what stands in a directory, two points name the directory around it, and a part of one point, or of
nothing, leads nowhere else.

* `Path.parts`: the parts of a path;
* `Directory`: where a path may come by, as far as it is known from the working directory;
* `Directory.start`: where a path begins.

## Main statements

* `parts_of_no_slash`: a text without slashes is one part.
-/

namespace Campaign

/-! ### Parts -/

namespace Path

/-- The texts between slashes. -/
def split : List Char → List (List Char)
  | [] => [[]]
  | c :: s =>
    if c = '/' then [] :: split s
    else
      match split s with
      | [] => [[c]]
      | part :: parts => (c :: part) :: parts

/-- The parts of a path. -/
def parts (path : String) : List String := (split path.toList).map String.ofList

theorem split_of_no_slash {s : List Char} (h : '/' ∉ s) : split s = [s] := by
  induction s with
  | nil => rfl
  | cons c s ih =>
    rw [List.mem_cons, not_or] at h
    rw [split, if_neg (Ne.symm h.1), ih h.2]

theorem parts_of_no_slash {path : String} (h : '/' ∉ path.toList) : parts path = [path] := by
  simp [parts, split_of_no_slash h]

/-- Whether a part leads nowhere else. -/
def isIdle (part : String) : Bool := part = "" || part = "."

/-- Whether a path begins at the root of the file system. -/
def isAbsolute (path : String) : Bool := path.toList.head? = some '/'

/-- The number of bytes that a path may have. -/
def maxSize : Nat := 4095

/-- The number of bytes that a name in a directory may have. -/
def maxNameSize : Nat := 255

end Path

/-! ### Directories -/

/-- A directory. -/
inductive Directory where
  /-- The working directory, or one in it, with the names that lead there. -/
  | inside (names : List String)
  /-- One that the working directory is in. -/
  | above
  /-- One with the names that lead there from the root of the file system. -/
  | absolute (names : List String)
  deriving DecidableEq, Repr

namespace Directory

/-- The directory in which a directory is; the root of the file system is in itself. -/
def parent : Directory → Directory
  | inside [] => above
  | inside names => inside names.dropLast
  | above => above
  | absolute names => absolute names.dropLast

/-- The directory in which a path begins. -/
def start (path : String) : Directory :=
  if Path.isAbsolute path then absolute [] else inside []

end Directory

end Campaign
