import Campaign.Command.Parse
import Campaign.Command.Path
import Campaign.Command.Perform

/-!
# Runs in a working directory

A run of the program as a function: from the files of a working directory and the arguments to the
files afterwards, the output, and the failure. The steps of the program are not told apart here.

* `Workspace.find`: what a path leads to;
* `Workspace.read`, `Workspace.write`: the effect on files;
* `Workspace.run`: a run.

## Main statements

* `lookup_put`: a file that was put into a directory stands there;
* `read_put`: a file in the working directory is read under its name.
-/

namespace Campaign

/-- What a file holds. -/
inductive Contents where
  | text (s : String)
  | drawing (d : Drawing)

/-- The text of a file. -/
def Contents.toText : Contents → String
  | text s => s
  | drawing d => d.svg

/-- A working directory: its files, with the names that lead there, which are the names of
directories and of the file at the end. -/
structure Workspace where
  files : List (List String × Contents)

/-- What a directory has under a name. -/
inductive Target where
  | file (contents : Contents)
  | directory (d : Directory)

namespace Workspace

/-- The working directory with files at the given paths. -/
def ofFiles (files : List (String × Contents)) : Workspace where
  files := files.map fun (path, contents) =>
    ((Path.parts path).filter fun part => !Path.isIdle part, contents)

/-! ### Finding -/

/-- The directories in the root of the file system. -/
def systemDirectories : List String :=
  ["bin", "boot", "dev", "etc", "home", "lib", "media", "mnt", "opt", "proc", "root", "run", "sbin",
    "srv", "sys", "tmp", "usr", "var"]

/-- What there is outside the working directory, with the names that lead there from the root of the
file system: some directories, and the file that is always empty. -/
def systemTarget? (names : List String) : Option Target :=
  match names with
  | [name] => if name ∈ systemDirectories then some (.directory (.absolute names)) else none
  | ["dev", "null"] => some (.file (.text ""))
  | _ => none

/-- What there is in the working directory, with the names that lead there. -/
def target? (w : Workspace) (names : List String) : Option Target :=
  match w.files.find? (·.1 = names) with
  | some (_, contents) => some (.file contents)
  | none =>
    if w.files.any fun file => names.isPrefixOf file.1 then some (.directory (.inside names))
    else none

/-- What a directory has under a name. Of the directories above the working directory nothing is
known. -/
def lookup (w : Workspace) (d : Directory) (name : String) : Except FileError Target :=
  if Path.maxNameSize < name.utf8ByteSize then .error .nameTooLong
  else
    let found := match d with
      | .inside names => w.target? (names ++ [name])
      | .above => none
      | .absolute names => systemTarget? (names ++ [name])
    match found with
    | some target => .ok target
    | none => .error .missing

/-- What the parts of a path lead to from a directory. -/
def findParts (w : Workspace) (d : Directory) : List String → Except FileError Target
  | [] => .ok (.directory d)
  | part :: rest =>
    if Path.isIdle part then findParts w d rest
    else if part = ".." then findParts w d.parent rest
    else
      match w.lookup d part with
      | .error e => .error e
      | .ok (.directory d) => findParts w d rest
      | .ok (.file contents) => if rest.isEmpty then .ok (.file contents) else .error .notDirectory

/-- What a path leads to. -/
def find (w : Workspace) (path : String) : Except FileError Target :=
  if Path.maxSize < path.utf8ByteSize then .error .nameTooLong
  else w.findParts (.start path) (Path.parts path)

/-! ### Reading and writing -/

/-- The contents of a file. -/
def read (w : Workspace) (path : String) : Except FileError Contents :=
  match w.find path with
  | .error e => .error e
  | .ok (.directory _) => .error .isDirectory
  | .ok (.file contents) => .ok contents

/-- The working directory with a file, new or in the place of another. -/
def put (w : Workspace) (names : List String) (contents : Contents) : Workspace :=
  ⟨w.files.filter (·.1 ≠ names) ++ [(names, contents)]⟩

theorem lookup_put (w : Workspace) (names : List String) (name : String) (contents : Contents)
    (h : name.utf8ByteSize ≤ Path.maxNameSize) :
    (w.put (names ++ [name]) contents).lookup (.inside names) name = .ok (.file contents) := by
  have none_left : w.files.find? (fun _ => false) = none := by simp
  simp [lookup, Nat.not_lt.mpr h, target?, put, List.find?_append, none_left]

theorem read_put (w : Workspace) {name : String} (contents : Contents)
    (plain : '/' ∉ name.toList) (not_idle : Path.isIdle name = false) (not_up : name ≠ "..")
    (h : name.utf8ByteSize ≤ Path.maxNameSize) :
    (w.put [name] contents).read name = .ok contents := by
  have short : ¬ Path.maxSize < name.utf8ByteSize := by
    have : Path.maxNameSize < Path.maxSize := by decide
    omega
  have relative : Directory.start name = .inside [] := by
    have : Path.isAbsolute name = false := by
      rw [Path.isAbsolute, decide_eq_false_iff_not]
      exact fun e => plain (List.mem_of_mem_head? e)
    simp [Directory.start, this]
  have there := lookup_put w [] name contents h
  rw [List.nil_append] at there
  simp [read, find, short, relative, Path.parts_of_no_slash plain, findParts, not_idle, not_up,
    there]

/-- The working directory after a file was written into a directory under a name. What is written
outside is not kept. -/
def writeAs (w : Workspace) (d : Directory) (name : String) (contents : Contents) :
    Except FileError Workspace :=
  match w.lookup d name with
  | .ok (.directory _) => .error .isDirectory
  | .ok (.file _) | .error .missing =>
    match d with
    | .inside names => .ok (w.put (names ++ [name]) contents)
    | _ => .ok w
  | .error e => .error e

/-- The working directory after a file was written. The file may be new, but then the directory that
it stands in is not. A path with a slash at its end, or with points there, leads to no file. -/
def write (w : Workspace) (path : String) (contents : Contents) : Except FileError Workspace :=
  if Path.maxSize < path.utf8ByteSize then .error .nameTooLong
  else
    let parts := (Path.parts path).reverse
    match parts.dropWhile (· = "") with
    | [] => .error .isDirectory
    | name :: rest =>
      let named := name ≠ "." && name ≠ ".."
      match w.findParts (.start path) (if named then rest else name :: rest).reverse with
      | .error e => .error e
      | .ok (.file _) => .error .notDirectory
      | .ok (.directory d) =>
        if named && parts.head? ≠ some "" then w.writeAs d name contents else .error .isDirectory

end Workspace

/-! ### Runs -/

/-- How a run ends. -/
inductive Ending where
  | success (output : Output)
  | failure (f : Failure)
  /-- The arguments are not understood. -/
  | usage

/-- The status that tells the caller how a run ended. -/
def Ending.status : Ending → Nat
  | success _ => 0
  | failure _ => 1
  | usage => 2

section

variable (tail : Float → Float)

/-- Performs a command in a working directory. -/
def Command.performIn (format : Format) (w : Workspace) (command : Command) :
    Except Failure (Workspace × Output) := do
  let contents := match command.source? with
    | some file => (w.read file).map Contents.toText
    | none => .ok ""
  let effect ← command.perform tail format contents
  match effect.drawing with
  | none => return (w, effect.output)
  | some (path, d) =>
    let w ← (w.write path (.drawing d)).mapError (.unwritable path)
    return (w, effect.output)

/-- A run of the program: the working directory afterwards, and how it ended. -/
def Workspace.run (w : Workspace) (args : List String) : Workspace × Ending :=
  match Request.parse? args with
  | none => (w, .usage)
  | some .version => (w, .success .version)
  | some (.perform format _ command) =>
    match command.performIn tail format w with
    | .ok (w, output) => (w, .success output)
    | .error f => (w, .failure f)

end

end Campaign
