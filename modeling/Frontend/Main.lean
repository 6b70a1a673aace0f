import Frontend.Command.Run

/-!
The command itself: reads the file that the arguments name and writes what `Command` answers.
-/

namespace Frontend.Command

/-- Why the system cannot read a file. -/
def ReadFailure.ofSystem : IO.Error → ReadFailure
  | .noFileOrDirectory .. => .notFound
  | .inappropriateType _ 20 _ => .notDirectory
  | .inappropriateType _ 21 _ => .isDirectory
  | e => .other (toString e)

/-- The text of a file of the system. -/
def readFile (path : String) : IO (Except ReadFailure String) := do
  try
    return textOfBytes (← IO.FS.readBinFile path)
  catch e => return .error (.ofSystem e)

/-- Writes what the command answers. -/
def Outcome.write (outcome : Outcome) : IO UInt32 := do
  IO.print outcome.output
  IO.eprint outcome.errors
  return UInt32.ofNat outcome.code

end Frontend.Command

open Frontend.Command in
/-- The command. -/
def main (arguments : List String) : IO UInt32 :=
  match Request.ofArguments arguments with
  | .misuse => misused.write
  | .version => Outcome.write ⟨0, versionText, ""⟩
  | .read options => do (answer options (← readFile options.path)).write
