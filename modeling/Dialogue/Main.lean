import Dialogue.Command.Run

/-! The program: reads the files that its arguments name, and prints what the command gives. -/

namespace Dialogue

def logSetting : String :=
  "KATARI_DEBUG"

/-- The number of a system error, which some calls give as its negative. -/
def errorNumber (code : UInt32) : UInt32 :=
  min code (0 - code)

/-- Why the system could not read a file. -/
def fileError (error : IO.Error) : Command.FileError :=
  match error with
  | .noFileOrDirectory .. => .notFound
  | .permissionDenied .. => .permissionDenied
  | .inappropriateType _ code _ | .invalidArgument _ code _ =>
      match (errorNumber code).toNat with
      | 20 => .notDirectory
      | 21 => .isDirectory
      | 36 => .nameTooLong
      | 40 => .tooManyLinks
      | _ => .other (toString error)
  | _ => .other (toString error)

/-- Reads a file as text. -/
def readText (path : String) : IO (Except Command.FileError String) := do
  try
    return Command.decodeText (← IO.FS.readBinFile path)
  catch error =>
    return .error (fileError error)

end Dialogue

/-- Runs the command line. -/
def main (arguments : List String) : IO UInt32 := do
  let contents ← (Dialogue.Command.paths arguments).mapM fun path => do
    return (path, ← Dialogue.readText path)
  let files := fun path => (contents.lookup path).getD (.error .notFound)
  let output := Dialogue.Command.run files (← IO.getEnv Dialogue.logSetting) arguments
  IO.eprint output.stderr
  IO.print output.stdout
  return UInt32.ofNat output.code
