import GraphPattern.CommandLine

/-!
# The program

Files, variables and the clock are those of the process.
-/

namespace GraphPattern.Program

open CommandLine

/-- Read a file. -/
def readBytes (path : String) : IO (Except FileFault (List UInt8)) := do
  try
    return .ok (← IO.FS.readBinFile path).toList
  catch
    | .noFileOrDirectory .. => return .error .missing
    | .inappropriateType _ 20 _ => return .error .notDirectory
    | .inappropriateType _ 21 _ => return .error .directory
    | .invalidArgument _ 36 _ => return .error .nameTooLong
    | fault => return .error (.unreadable (toString fault))

/-- The files, the variables and the clock of the process. -/
def surroundings : Surroundings IO where
  read := readBytes
  value? name := IO.getEnv name
  now := IO.monoNanosNow

end GraphPattern.Program

/-- Carry out the command on the command line. -/
def main (arguments : List String) : IO UInt32 := do
  let outcome ← GraphPattern.CommandLine.respond GraphPattern.Program.surroundings arguments
  IO.print (GraphPattern.CommandLine.Written.text outcome.written.output)
  IO.eprint (GraphPattern.CommandLine.Written.text outcome.written.diagnostics)
  return outcome.status.code
