import MiniJava.Command

/-!
# The program

Reads the arguments and the file, and writes what the command says.
-/

namespace MiniJava

/-- The error of the machine as one of the library. -/
def ReadError.ofFailure : IO.Error → ReadError
  | .permissionDenied .. => .denied
  | .inappropriateType none .. => .isFolder
  | .inappropriateType (some _) .. => .notFolder
  | .invalidArgument .. => .nameTooLong
  | _ => .notFound

/-- The contents of a file. -/
def readContents (file : String) : IO (Except ReadError ByteArray) := do
  try
    return .ok (← IO.FS.readBinFile file)
  catch e => return .error (.ofFailure e)

/-- How the command is used. -/
def usage : String :=
  "usage: minijavac [--no-color] [--plain] [-v] (tokens | parse [--ast] | check) FILE\n"

/-- Run the command on the file that it names. -/
def runCommand (args : List String) : IO UInt32 := do
  match Command.parse? args with
  | none =>
    (← IO.getStderr).putStr usage
    return 2
  | some command =>
    let outcome := command.run (← readContents command.file)
    (← IO.getStdout).putStr outcome.stdout
    (← IO.getStderr).putStr outcome.stderr
    return if outcome.success then 0 else 1

end MiniJava

def main (args : List String) : IO UInt32 := MiniJava.runCommand args
