import ByteByteJump.Notice

/-! Keeping frames to their period.

A pacer is told when a frame starts and when its work is done, and says how long
to wait then. With truncated pacing a frame is due one period after its own
start. With exact pacing deadlines follow one another a period apart, whenever
the frames really start, so waking late from a wait costs nothing in the long
run; only the first frame and one after a missed deadline set a new origin, so
that lost time is not made up. Work done after the deadline is an overrun. -/
namespace ByteByteJump

structure Pacer where
  pacing : Pacing
  frameStart : Nat
  /-- The latest deadline, with exact pacing. -/
  deadline : Option Nat
  /-- Whether the frame that ended last missed its deadline. -/
  overran : Bool
  overruns : Nat
deriving DecidableEq, Repr

namespace Pacer

/-- A pacer made at an instant. -/
def new (pacing : Pacing) (now : Nat) : Pacer := ⟨pacing, now, none, false, 0⟩

/-- A frame starts. -/
def start (p : Pacer) (now : Nat) : Pacer :=
  { p with
    frameStart := now
    deadline :=
      if p.pacing = .exact ∧ (p.deadline = none ∨ p.overran = true) then some now else p.deadline
    overran := false }

/-- When the frame is due. -/
def due? (p : Pacer) : Option Nat :=
  match p.pacing with
  | .truncated => some (p.frameStart + p.pacing.period)
  | .exact => some (p.deadline.getD p.frameStart + p.pacing.period)
  | .unlimited => none

/-- The pacer once a frame's due time has served. -/
def advance (p : Pacer) (due : Nat) : Pacer :=
  if p.pacing = .exact then { p with deadline := some due } else p

/-- The frame's work is done: the pacer goes on to the next deadline and tells
the time left, with a notice if the frame overran. -/
def remaining (p : Pacer) (now : Nat) : Pacer × Nat × List Notice :=
  match p.due? with
  | none => (p, 0, [])
  | some due =>
    if due < now then
      ({ p.advance due with overran := true, overruns := p.overruns + 1 }, 0,
        [.frameOverran (now - p.frameStart) p.pacing.period])
    else (p.advance due, due - now, [])

end Pacer

end ByteByteJump
