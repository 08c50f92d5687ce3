import ByteByteJump.Launch

/-! The program: arguments and files in, two streams and an exit code out. -/
namespace ByteByteJump

/-- The system's number for an error; that of a failed transfer if it has none. -/
def systemCode : IO.Error → UInt32
  | .noFileOrDirectory _ code _
  | .noSuchThing _ code _
  | .permissionDenied _ code _
  | .inappropriateType _ code _
  | .invalidArgument _ code _
  | .resourceExhausted _ code _
  | .otherError code _ => code
  | _ => 5

/-- Why the system did not give a file. Its numbers come with either sign. -/
def readFailure (e : IO.Error) : ReadFailure :=
  let code := systemCode e
  .ofCode (min code (0 - code)).toNat

def readFile (path : String) : IO (Except ReadFailure ByteArray) := do
  try return .ok (← IO.FS.readBinFile path)
  catch e => return .error (readFailure e)

end ByteByteJump

open ByteByteJump in
/-- Runs the program, reading the one file it may ask for first. -/
def main (arguments : List String) : IO UInt32 := do
  let file ← match CommandLine.read arguments with
    | .ok o => readFile o.program
    | .error _ => pure (.error .notFound)
  let exit := Launch.run CommandLine.programName arguments fun _ => file
  (← IO.getStdout).putStr exit.output
  (← IO.getStderr).putStr exit.errors
  return exit.code.toUInt32
