import ByteByteJump.Failure
import ByteByteJump.Pacing
import ByteByteJump.Time

/-! What is worth a line in the log.

A notice is an event with what the line tells of it; its level and its text
follow. -/
namespace ByteByteJump

/-- How much a line matters, most first. -/
inductive Level where
  | error
  | warn
  | info
  | debug
  | trace
deriving DecidableEq, Repr

namespace Level

def name : Level → String
  | error => "ERROR"
  | warn => "WARN"
  | info => "INFO"
  | debug => "DEBUG"
  | trace => "TRACE"

def rank : Level → Nat
  | error => 1
  | warn => 2
  | info => 3
  | debug => 4
  | trace => 5

/-- Whether lines of a level are shown up to another. -/
def shownAt (l limit : Level) : Bool := l.rank ≤ limit.rank

end Level

inductive Notice where
  | loaded (path : String) (size : Nat)
  | running (pacing : Pacing)
  | limitReached (frames : Nat)
  | hostStopped (frames : Nat)
  | frameAborted (frame executed : Nat) (fault : Fault)
  | frameOverran (elapsed period : Nat)
  | periodsOverrun (count : Nat)
deriving DecidableEq, Repr

namespace Notice

def level : Notice → Level
  | frameAborted .. => .error
  | frameOverran .. => .debug
  | _ => .info

def text : Notice → String
  | loaded path size => "loaded " ++ path ++ " (" ++ toString size ++ " bytes)"
  | running pacing =>
    "running at " ++ Time.text pacing.period ++ " per frame (" ++ pacing.name ++ " pacing)"
  | limitReached frames => "frame limit reached after " ++ toString frames ++ " frames"
  | hostStopped frames => "host stopped after " ++ toString frames ++ " frames"
  | frameAborted frame executed fault =>
    "frame " ++ toString frame ++ " aborted after " ++ toString executed ++ " instructions: " ++
      fault.text
  | frameOverran elapsed period =>
    "frame overran: took " ++ Time.text elapsed ++ ", period " ++ Time.text period
  | periodsOverrun count => toString count ++ " frame(s) overran their period"

end Notice

end ByteByteJump
