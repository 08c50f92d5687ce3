import ByteByteJump.Host
import ByteByteJump.Machine.Frame

/-! A machine running frame by frame against a host.

Each frame takes the host's keys, runs, and hands out its picture and then its
sound; it counts once both are taken. A fault ends the session for good: the
frame has no output, and no frame runs afterwards. A frame that reaches for a
byte outside the memory stops where it is. The frame loop polls the host before
each frame and ends when the host stops, when a limit of frames is reached, or at
the first failure. What happens on the way — calls to the host and notices — is
kept in order as a list of events. -/
namespace ByteByteJump

inductive Phase where
  | idle
  /-- In the middle of a frame; seen from outside only where a frame could not
  even start. -/
  | running
  /-- Ended by a fault, for good. -/
  | aborted (f : Fault)
deriving DecidableEq, Repr

/-- A call to the host. -/
inductive Call where
  | poll
  | present (picture : ByteArray)
  | play (sound : ByteArray)

inductive Event where
  | call (c : Call)
  | notice (n : Notice)

structure Session (σ : Type) where
  machine : Machine
  host : σ
  pacer : Pacer
  phase : Phase
  /-- Frames whose picture and sound were taken. -/
  frames : Nat
  limit : Option Nat

namespace Session

variable {σ : Type}

def new (machine : Machine) (host : σ) (pacer : Pacer) (limit : Option Nat) : Session σ :=
  ⟨machine, host, pacer, .idle, 0, limit⟩

/-- The end of an operation: the session left behind, what happened, and how it
came out. -/
structure Outcome (σ : Type) where
  session : Session σ
  events : List Event
  result : Except (Stop Failure) Unit

/-- The same outcome after earlier events. -/
def Outcome.after (o : Outcome σ) (events : List Event) : Outcome σ :=
  { o with events := events ++ o.events }

/-! ### One frame -/

/-- Plays the sound of a frame, which is then complete. -/
def playSound (host : Host σ) (s : Session σ) : Outcome σ :=
  match s.machine.sound? with
  | none => ⟨s, [], .error .outOfRange⟩
  | some sound =>
    match host.play sound s.host with
    | (.error f, state) => ⟨{ s with host := state }, [.call (.play sound)], .error (.failed f)⟩
    | (.ok (), state) =>
      ⟨{ s with host := state, frames := s.frames + 1 }, [.call (.play sound)], .ok ()⟩

/-- Hands out the picture and the sound of a frame. -/
def deliver (host : Host σ) (s : Session σ) : Outcome σ :=
  match s.machine.picture? with
  | none => ⟨s, [], .error .outOfRange⟩
  | some picture =>
    match host.present picture s.host with
    | (.error f, state) =>
      ⟨{ s with host := state }, [.call (.present picture)], .error (.failed f)⟩
    | (.ok (), state) => (playSound host { s with host := state }).after [.call (.present picture)]

/-- Runs one frame with the given keys. -/
def frame (host : Host σ) (keys : Keypad) (s : Session σ) : Outcome σ :=
  match s with
  | ⟨machine, state, pacer, phase, frames, limit⟩ =>
    match phase with
    | .aborted f => ⟨⟨machine, state, pacer, .aborted f, frames, limit⟩, [], .error (.failed (.fault f))⟩
    | _ =>
      match machine.frame keys with
      | (machine, .error .outOfRange) =>
        ⟨⟨machine, state, pacer, .running, frames, limit⟩, [], .error .outOfRange⟩
      | (machine, .error (.failed f)) =>
        ⟨⟨machine, state, pacer, .aborted f, frames, limit⟩,
          [.notice (.frameAborted frames machine.executed f)], .error (.failed (.fault f))⟩
      | (machine, .ok ()) => deliver host ⟨machine, state, pacer, .idle, frames, limit⟩

/-! ### The frame loop -/

def limitReached (s : Session σ) : Bool :=
  match s.limit with
  | some limit => limit ≤ s.frames
  | none => false

/-- The end of a run that was not cut short, with the overruns so far. -/
def close (s : Session σ) (last : Notice) : Outcome σ :=
  let overruns := if s.pacer.overruns = 0 then [] else [.notice (.periodsOverrun s.pacer.overruns)]
  ⟨s, .notice last :: overruns, .ok ()⟩

/-- What one round of the loop comes to. -/
inductive Round (σ : Type) where
  | over (o : Outcome σ)
  | again (s : Session σ) (events : List Event)

/-- Waits out the frame's period. -/
def waitOut (host : Host σ) (s : Session σ) (events : List Event) : Round σ :=
  let (pacer, state, notices) := s.pacer.wait host s.host
  .again { s with pacer, host := state } (events ++ notices.map .notice)

/-- A frame of the loop, with the keys the host polled. -/
def playFrame (host : Host σ) (keys : Keypad) (s : Session σ) : Round σ :=
  match s.frame host keys with
  | ⟨s, events, .ok ()⟩ => waitOut host s (.call .poll :: events)
  | ⟨s, events, .error e⟩ => .over ⟨s, .call .poll :: events, .error e⟩

/-- Starts a frame's period. -/
def startPeriod (host : Host σ) (s : Session σ) : Session σ :=
  let (pacer, state) := s.pacer.startNow host s.host
  { s with pacer, host := state }

/-- Asks the host for its input, and plays a frame if it is running. -/
def pollFrame (host : Host σ) (s : Session σ) : Round σ :=
  match host.poll s.host with
  | (.error f, state) => .over ⟨{ s with host := state }, [.call .poll], .error (.failed f)⟩
  | (.ok input, state) =>
    if input.running then playFrame host input.keys { s with host := state }
    else .over ((close { s with host := state } (.hostStopped s.frames)).after [.call .poll])

def round (host : Host σ) (s : Session σ) : Round σ :=
  if s.limitReached then .over (s.close (.limitReached s.frames))
  else pollFrame host (s.startPeriod host)

/-- The outcome of at most `fuel` rounds, if the last of them ended the loop. -/
def rounds (host : Host σ) : Nat → Session σ → Option (Outcome σ)
  | 0, _ => none
  | fuel + 1, s =>
    match s.round host with
    | .over o => some o
    | .again s events => (rounds host fuel s).map (·.after events)

/-- Runs frames until the loop ends; `none` if that takes more than `fuel`
rounds. -/
def run (host : Host σ) (fuel : Nat) (s : Session σ) : Option (Outcome σ) :=
  (s.rounds host fuel).map (·.after [.notice (.running s.pacer.pacing)])

end Session

end ByteByteJump
