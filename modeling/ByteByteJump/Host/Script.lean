import ByteByteJump.Session

/-! A host that follows a script.

The script lists the answers to polls, and which calls to show a picture or to
play a sound fail. Where it has run out, a poll says to stop and the other calls
succeed. Its clock moves only when it sleeps or when a poll takes its time, so a
session against a script is a computation, and one that ends: each round of the
frame loop takes an answer from the script or is the last. -/
namespace ByteByteJump

structure Script where
  /-- Answers to polls still to come. -/
  polls : List (Except Failure Input)
  /-- For each call to show a picture, the failure it ends with. -/
  presents : List (Option Failure)
  /-- For each call to play a sound, the failure it ends with. -/
  plays : List (Option Failure)
  /-- How long a poll takes. -/
  delay : Nat
  clock : Nat

namespace Script

/-- The input that stops a run. -/
def stop : Input := ⟨false, .released⟩

def poll (s : Script) : Except Failure Input × Script :=
  match s.polls with
  | [] => (.ok stop, { s with clock := s.clock + s.delay })
  | answer :: polls => (answer, { s with polls, clock := s.clock + s.delay })

/-- What a call comes to that may be the next to fail. -/
def verdict : List (Option Failure) → Except Failure Unit
  | some f :: _ => .error f
  | _ => .ok ()

def host : Host Script where
  poll := poll
  present := fun _ s => (verdict s.presents, { s with presents := s.presents.tail })
  play := fun _ s => (verdict s.plays, { s with plays := s.plays.tail })
  now := fun s => (s.clock, s)
  sleep := fun span s => { s with clock := s.clock + span }

/-- Rounds enough for any run against the script. -/
def fuel (s : Script) : Nat := s.polls.length + 1

/-- Runs a session against its script. -/
def run (s : Session Script) : Option (Session.Outcome Script) := s.run host s.host.fuel

end Script

end ByteByteJump
