/-! How long frames last.

Sixty frames make a second. A period may be that of whole milliseconds, which
runs a little fast, the true sixtieth of a second, or nothing. -/
namespace ByteByteJump

inductive Pacing where
  /-- Whole milliseconds, measured from the start of each frame. -/
  | truncated
  /-- A sixtieth of a second, measured from the deadline before. -/
  | exact
  /-- No waiting at all. -/
  | unlimited
deriving DecidableEq, Repr

namespace Pacing

def framesPerSecond : Nat := 60

/-- The period of a frame in nanoseconds. -/
def period : Pacing → Nat
  | truncated => 1000 / framesPerSecond * 1000000
  | exact => 1000000000 / framesPerSecond
  | unlimited => 0

def name : Pacing → String
  | truncated => "Truncated"
  | exact => "Exact"
  | unlimited => "Unlimited"

/-- How it is written as a choice. -/
def word : Pacing → String
  | truncated => "truncated"
  | exact => "exact"
  | unlimited => "unlimited"

def all : List Pacing := [truncated, exact, unlimited]

def ofWord? (w : String) : Option Pacing := all.find? fun p => p.word = w

theorem ofWord?_word (p : Pacing) : ofWord? p.word = some p := by
  cases p <;> rfl

end Pacing

end ByteByteJump
