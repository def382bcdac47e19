import TypeAlgebra.Report.Records

/-! The program: reads the files that the command names, prints its report, and exits with its code. -/
namespace TypeAlgebra

def FileError.ofSystem : IO.Error → FileError
  | .noFileOrDirectory _ code text | .inappropriateType _ code text | .invalidArgument _ code text
  | .permissionDenied _ code text | .resourceExhausted _ code text | .otherError code text =>
    ⟨text, code.toNat⟩
  | other => ⟨other.toString, 5⟩

/-- Opens a file and reads it whole. -/
def openFile (path : String) : IO (Except FileError File) := do
  match ← (IO.FS.Handle.mk path .read).toBaseIO with
  | .error e => return .error (.ofSystem e)
  | .ok handle =>
    match ← handle.readBinToEnd.toBaseIO with
    | .error e => return .ok (.error (.ofSystem e))
    | .ok bytes => return .ok (.ok bytes)

def Command.paths : Command → List String
  | .check schema => [schema]
  | .parse schema input _ _ => [schema, input]

def Usage.message : Usage → String
  | .noCommand => "a command is needed: check SCHEMA, or parse SCHEMA INPUT"
  | .misspeltCommand => "there is no such command, but one that is nearly alike"
  | .unknownTopic => "there is no help on this"
  | .unknownArgument => "an argument is unknown"
  | .missingArgument => "an argument is missing"
  | .emptyValue => "an option lacks its value"
  | .invalidValue => "an option has a value that does not fit"
  | .repeatedOption => "an option is given twice"
  | .help | .version =>
    "check SCHEMA | parse SCHEMA INPUT [--policy raise|pass] [--limit COUNT]"

end TypeAlgebra

open TypeAlgebra

def main (args : List String) : IO UInt32 := do
  match Command.ofArguments args with
  | .error usage =>
    IO.eprintln usage.message
    return if usage = .help ∨ usage = .version then 0 else 1
  | .ok command =>
    let files ← command.paths.mapM fun path => return (path, ← openFile path)
    let report := Report.ofCommand (fun path => (files.lookup path).getD (.error .notFound)) command
    IO.print report.stdout
    IO.eprint report.stderr
    return report.exitCode.toUInt32
