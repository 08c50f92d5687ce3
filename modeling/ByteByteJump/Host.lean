import ByteByteJump.Keypad
import ByteByteJump.Pacer

/-! The world around the machine.

A host shows pictures, plays sound, reads the keys and keeps the time. It is a
record of functions on a state of its own, so that what holds for every host
holds for a window with a speaker as well as for a script. Any of its first
three duties may fail; time never does. -/
namespace ByteByteJump

/-- What a host answers before each frame. -/
structure Input where
  /-- Whether the run goes on. -/
  running : Bool
  keys : Keypad
deriving DecidableEq, Repr

structure Host (σ : Type) where
  poll : σ → Except Failure Input × σ
  /-- Shows a picture. -/
  present : ByteArray → σ → Except Failure Unit × σ
  /-- Plays the sound of a frame. -/
  play : ByteArray → σ → Except Failure Unit × σ
  /-- Reads the clock. -/
  now : σ → Nat × σ
  /-- Lets a span of time go by. -/
  sleep : Nat → σ → σ

namespace Pacer

variable {σ : Type}

/-- Starts a frame at the host's time. -/
def startNow (p : Pacer) (host : Host σ) (s : σ) : Pacer × σ :=
  let (now, s) := host.now s
  (p.start now, s)

/-- Waits until the frame's period is used up. -/
def wait (p : Pacer) (host : Host σ) (s : σ) : Pacer × σ × List Notice :=
  let (now, s) := host.now s
  let (p, left, notices) := p.remaining now
  (p, if left = 0 then s else host.sleep left s, notices)

/-- Frames with nothing to do in them. -/
def idle (p : Pacer) (host : Host σ) : Nat → σ → Pacer × σ
  | 0, s => (p, s)
  | n + 1, s =>
    let (p, s) := p.startNow host s
    let (p, s, _) := p.wait host s
    idle p host n s

end Pacer

end ByteByteJump
