import ByteByteJump.Session

/-! What an operation on a session did, told in full.

The events of an operation name the calls to the host, but not what the host
answered, and they do not show the frames that the machine set out on. An
`Account` has both: the exchanges, each a call with its answer, and the attempts,
each with the machine as it was before. It is read off the same states that the
operation itself goes through, so there is one account for each operation; that
its calls are the calls among the events is proved in `Conduct`. -/
namespace ByteByteJump

/-- A call to the host and its answer. -/
inductive Exchange where
  | poll (answer : Except Failure Input)
  | present (picture : ByteArray) (answer : Except Failure Unit)
  | play (sound : ByteArray) (answer : Except Failure Unit)

namespace Exchange

def call : Exchange → Call
  | poll _ => .poll
  | present picture _ => .present picture
  | play sound _ => .play sound

/-- What the host said, whatever it was asked: only a poll is answered with an input. -/
@[simp] def answer : Exchange → Except Failure (Option Input)
  | poll (.ok input) => .ok (some input)
  | present _ (.ok ()) => .ok none
  | play _ (.ok ()) => .ok none
  | poll (.error e) => .error e
  | present _ (.error e) => .error e
  | play _ (.error e) => .error e

/-- What a call failed with, if it failed. -/
def failure? : Exchange → Option Failure
  | poll (.error e) => some e
  | present _ (.error e) => some e
  | play _ (.error e) => some e
  | _ => none

end Exchange

/-- A frame that the machine set out on: the machine and the number of complete
frames before it, and the keys. -/
structure Attempt where
  machine : Machine
  keys : Keypad
  frames : Nat

namespace Attempt

def fault? (a : Attempt) : Option Fault :=
  match (a.machine.frame a.keys).2 with
  | .error (.failed f) => some f
  | _ => none

/-- What the log owes an attempt: a line if it faulted, with the complete frames
before it and the instructions it executed. -/
def alarm? (a : Attempt) : Option Notice :=
  a.fault?.map (.frameAborted a.frames (a.machine.frame a.keys).1.executed)

theorem fault?_eq_some_iff {a : Attempt} {f : Fault} :
    a.fault? = some f ↔ (a.machine.frame a.keys).2 = .error (.failed f) := by
  unfold fault?
  split
  next heq => simp [heq]
  next hne => exact ⟨nofun, fun h => (hne f h).elim⟩

end Attempt

/-- What was said to the host and answered, and what the machine set out on. -/
@[ext] structure Account where
  exchanges : List Exchange
  attempts : List Attempt

namespace Account

def empty : Account := ⟨[], []⟩

/-- The host's side of an account. -/
def answers (a : Account) : List (Except Failure (Option Input)) := a.exchanges.map Exchange.answer

instance : Append Account where
  append a b := ⟨a.exchanges ++ b.exchanges, a.attempts ++ b.attempts⟩

@[simp] theorem exchanges_empty : empty.exchanges = [] := rfl

@[simp] theorem attempts_empty : empty.attempts = [] := rfl

@[simp] theorem exchanges_append (a b : Account) :
    (a ++ b).exchanges = a.exchanges ++ b.exchanges := rfl

@[simp] theorem attempts_append (a b : Account) :
    (a ++ b).attempts = a.attempts ++ b.attempts := rfl

@[simp] theorem answers_mk (exchanges : List Exchange) (attempts : List Attempt) :
    (Account.mk exchanges attempts).answers = exchanges.map Exchange.answer := rfl

@[simp] theorem answers_append (a b : Account) : (a ++ b).answers = a.answers ++ b.answers :=
  List.map_append

theorem append_assoc (a b c : Account) : a ++ b ++ c = a ++ (b ++ c) :=
  Account.ext (List.append_assoc ..) (List.append_assoc ..)

@[simp] theorem append_empty (a : Account) : a ++ empty = a :=
  Account.ext (List.append_nil _) (List.append_nil _)

end Account

/-! ### Events -/

def Event.call? : Event → Option Call
  | .call c => some c
  | .notice _ => none

/-- The notice of an event, if it is an error. -/
def Event.error? : Event → Option Notice
  | .call _ => none
  | .notice n => if n.level = .error then some n else none

/-- The calls to the host, in order. -/
def calls (events : List Event) : List Call := events.filterMap Event.call?

/-- The lines of the log that report an error, in order. -/
def errors (events : List Event) : List Notice := events.filterMap Event.error?

@[simp] theorem calls_append (a b : List Event) : calls (a ++ b) = calls a ++ calls b :=
  List.filterMap_append

@[simp] theorem errors_append (a b : List Event) : errors (a ++ b) = errors a ++ errors b :=
  List.filterMap_append

@[simp] theorem calls_call_cons (c : Call) (events : List Event) :
    calls (.call c :: events) = c :: calls events := rfl

@[simp] theorem errors_call_cons (c : Call) (events : List Event) :
    errors (.call c :: events) = errors events := rfl

/-! ### The account of a session's operations -/

namespace Session

variable {σ : Type} (host : Host σ)

def playExchanges (s : Session σ) : List Exchange :=
  match s.machine.sound? with
  | none => []
  | some sound => [.play sound (host.play sound s.host).1]

def deliverExchanges (s : Session σ) : List Exchange :=
  match s.machine.picture? with
  | none => []
  | some picture =>
    match host.present picture s.host with
    | (.error f, _) => [.present picture (.error f)]
    | (.ok (), state) => .present picture (.ok ()) :: playExchanges host { s with host := state }

/-- A refused frame is no attempt. -/
def frameAccount (keys : Keypad) (s : Session σ) : Account :=
  match s.phase with
  | .aborted _ => .empty
  | _ =>
    let exchanges :=
      match s.machine.frame keys with
      | (machine, .ok ()) => deliverExchanges host { s with machine, phase := .idle }
      | _ => []
    ⟨exchanges, [⟨s.machine, keys, s.frames⟩]⟩

/-- What the host answers when a round of the loop polls it. -/
def polled (s : Session σ) : Except Failure Input := (host.poll (s.startPeriod host).host).1

/-- The session that a round has polled the host for. -/
def asked (s : Session σ) : Session σ :=
  { s.startPeriod host with host := (host.poll (s.startPeriod host).host).2 }

def roundAccount (s : Session σ) : Account :=
  if s.limitReached then .empty
  else
    match s.polled host with
    | .error f => ⟨[.poll (.error f)], []⟩
    | .ok input =>
      ⟨[.poll (.ok input)], []⟩ ++
        if input.running then frameAccount host input.keys (s.asked host) else .empty

/-- The account of the rounds that at most `fuel` allows. -/
def runAccount : Nat → Session σ → Account
  | 0, _ => .empty
  | fuel + 1, s =>
    s.roundAccount host ++
      match s.round host with
      | .over _ => .empty
      | .again next _ => runAccount fuel next

end Session

end ByteByteJump
