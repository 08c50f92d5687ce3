import ByteByteJump.CommandLine.Reader
import ByteByteJump.Directory
import ByteByteJump.Log
import ByteByteJump.Machine

/-! Starting the program, from its arguments to its exit.

The arguments choose options, the image is read and loaded into a full machine,
and a window is opened to run it in. No window system is attached here, so a
start that comes that far ends with the window refused. What is printed tells
how it went: texts that were asked for on standard output, the log and a failure
with its chain of causes on standard error. -/
namespace ByteByteJump

open CommandLine (Options Refusal)

/-- How the program ends and what it printed. -/
structure Exit where
  code : UInt8
  output : String
  errors : String
deriving DecidableEq, Repr

/-! ### Failures with what they prevented -/

/-- The lines of a chain of causes, numbered where there are several. -/
def causeLines (causes : List String) : List String :=
  match causes with
  | [cause] => ["    " ++ cause]
  | _ => causes.mapIdx fun i cause =>
    String.ofList (List.leftpad 5 ' ' (Nat.toDigits 10 i)) ++ ": " ++ cause

/-- The report of a failure under what was going on. -/
def Failure.report (f : Failure) (doing : String) : String :=
  "Error: " ++ doing ++ "\n\nCaused by:\n" ++ String.join ((causeLines f.causes).map (· ++ "\n"))

/-! ### From the arguments to the exit -/

namespace Launch

def refusalText : Refusal → String
  | .invalidValue => "a value is missing or not one of the possible values"
  | .valueValidation => "a value is not a number of frames"
  | .unknownArgument => "unexpected argument found"
  | .missingRequiredArgument => "the required argument <PROGRAM> was not provided"
  | .argumentConflict => "an option cannot be used multiple times"
  | .tooManyValues => "unexpected value for an option without one"

/-- The exit for arguments that cannot be read. -/
def usageError (r : Refusal) : Exit :=
  ⟨2, "", "error: " ++ refusalText r ++ "\n\nFor more information, try '--help'.\n"⟩

/-- Opens a window to run a machine in. -/
def openWindow : Except Failure Empty := .error (.window .notCreated)

/-- Runs with options, given what reading the image gives. -/
def start (o : Options) (image : Except ReadFailure ByteArray) : Exit :=
  match Machine.blank.loadFile (image.mapError ReadFailure.text) with
  | .error f => ⟨1, "", f.report ("loading " ++ o.program)⟩
  | .ok (_, size) =>
    let log := logText o.level [.loaded o.program size]
    match openWindow with
    | .error f => ⟨1, "", log ++ f.report "starting host"⟩
    | .ok window => nomatch window

/-- Runs with arguments: the texts they ask for, a refusal, or a start. -/
def run (name : String) (arguments : List String)
    (read : String → Except ReadFailure ByteArray) : Exit :=
  match CommandLine.read arguments with
  | .error (.refused r) => usageError r
  | .error (.help full) => ⟨0, CommandLine.helpText name full, ""⟩
  | .error .version => ⟨0, CommandLine.versionText, ""⟩
  | .ok o => start o (read o.program)

end Launch

end ByteByteJump
