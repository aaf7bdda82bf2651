import Campaign.Command.Program
import Campaign.RankSum.NormalTail

/-!
# The command line

* `main`: the program on the system.
-/

namespace Campaign

/-- Why an access to a file failed. -/
def FileError.ofIO : IO.Error → FileError
  | .noFileOrDirectory .. => .missing
  | .inappropriateType _ code _ => if code = 21 then .isDirectory else .notDirectory
  | .invalidArgument .. => .nameTooLong
  | e => .other (toString e)

instance : Console IO where
  readFile file := do
    try
      return .ok (← IO.FS.readFile file)
    catch e => return .error (.ofIO e)
  writeFile file contents := do
    try
      IO.FS.writeFile file contents.toText
      return .ok ()
    catch e => return .error (.ofIO e)
  print text := IO.print text
  printError text := IO.eprint text
  log e := IO.eprintln e.text

end Campaign

open Campaign in
/-- The program. -/
def main (args : List String) : IO UInt32 := program RankSum.normalUpperTail args
