import ByteByteJump.CommandLine.Declaration

/-! The parser that comes with the program.

An argument that starts with two dashes is an option by name, one that starts
with a single dash a cluster of one-letter options, and any other a value: of
the option before it, if that waits for one, or else of the parameter told by
its place. After a bare `--` every argument is a value of the second kind.

What is met is settled late. A value that has been read stays pending until the
next parameter is met or the arguments end, and only then is it looked at. An
argument that fits nowhere is refused at once, before a fault in what is
pending. -/
namespace ByteByteJump.CommandLine

/-! ### Arguments by their form -/

inductive Token where
  /-- A bare `--`. -/
  | separator
  /-- An option by name, perhaps with a value after an equals sign. -/
  | long (name : Argument) (value? : Option Argument)
  /-- One-letter options in a row. -/
  | short (letters : List UInt8)
  | plain
deriving DecidableEq, Repr

/-- Splits at the first equals sign. -/
def Token.ofLong (body : Argument) : Token :=
  match body.dropWhile (· ≠ Argument.equals) with
  | [] => .long body none
  | _ :: value => .long (body.takeWhile (· ≠ Argument.equals)) (some value)

def Token.ofArgument (w : Argument) : Token :=
  match w with
  | first :: second :: body =>
    if first ≠ Argument.dash then .plain
    else if second ≠ Argument.dash then .short (second :: body)
    else if body = [] then .separator
    else .ofLong body
  | _ => .plain

/-! ### What was met -/

namespace Command

variable (c : Command)

def named? (name : Argument) : Option Parameter := c.find? (·.name? = some name)

/-- Letters are for parameters without values. -/
def lettered? (letter : UInt8) : Option Parameter :=
  c.find? fun p => p.letter? = some letter ∧ p.action ≠ .set

/-- What the program gets if these were met. -/
def found (given : List Occurrence) : Matches where
  value? id := ((given.find? (·.id = id)).bind (·.value?)).or
    (((c.find? (·.id = id)).bind (·.default?)).map .ofText)
  isOn id := given.any (·.id = id)
  count id := min mostCounted (given.countP (·.id = id))

/-- Ends reading: nothing that is required may be missing. -/
def complete (given : List Occurrence) : Except Ending Matches :=
  if c.all fun p => !p.required || given.any (·.id = p.id) then .ok (c.found given)
  else .error (.refused .missingRequiredArgument)

end Command

namespace Parameter

variable (p : Parameter)

/-- Adds an occurrence. Only what is counted may occur again. -/
def add (value? : Option Argument) (given : List Occurrence) :
    Except Ending (List Occurrence) :=
  if p.action ≠ .count ∧ given.any (·.id = p.id) then .error (.refused .argumentConflict)
  else match value?.bind p.refuses with
    | some r => .error (.refused r)
    | none => .ok (given ++ [⟨p.id, value?⟩])

/-- Meets a parameter without a value, by its name or by its letter. -/
def meet (byName : Bool) (given : List Occurrence) : Except Ending (List Occurrence) :=
  match p.action with
  | .help => .error (.help byName)
  | .version => .error .version
  | _ => p.add none given

end Parameter

/-! ### Reading argument by argument -/

/-- What was read and is not yet settled. -/
inductive Pending where
  | nothing
  /-- A parameter that waits for its value. -/
  | awaiting (p : Parameter)
  | value (p : Parameter) (w : Argument)

structure Reader where
  given : List Occurrence
  pending : Pending
  /-- Whether a bare `--` was read. -/
  trailing : Bool

namespace Reader

def start : Reader := ⟨[], .nothing, false⟩

/-- What was met, with what is pending settled. -/
def settled (r : Reader) : Except Ending (List Occurrence) :=
  match r.pending with
  | .nothing => .ok r.given
  | .awaiting _ => .error (.refused .invalidValue)
  | .value p w => p.add (some w) r.given

/-- Whether a parameter was met, settled or not. -/
def hasMet (r : Reader) (p : Parameter) : Bool :=
  r.given.any (·.id = p.id) ||
    match r.pending with
    | .value q _ => q.id = p.id
    | _ => false

/-- Settles what is pending and leaves something else pending. -/
def wait (r : Reader) (pending : Pending) : Except Ending Reader := do
  return { r with given := ← r.settled, pending }

/-- Settles what is pending and goes on from there. -/
def apply (r : Reader) (f : List Occurrence → Except Ending (List Occurrence)) :
    Except Ending Reader := do
  return { r with given := ← f (← r.settled), pending := .nothing }

variable (c : Command)

def readPositional (r : Reader) (w : Argument) : Except Ending Reader :=
  match c.find? (·.isPositional) with
  | none => .error (.refused .unknownArgument)
  | some p => if r.hasMet p then .error (.refused .unknownArgument) else r.wait (.value p w)

def readLong (r : Reader) (name : Argument) (value? : Option Argument) : Except Ending Reader :=
  match c.named? name with
  | none => .error (.refused .unknownArgument)
  | some p =>
    match p.action, value? with
    | .set, none => r.wait (.awaiting p)
    | .set, some w => r.apply (p.add (some w))
    | _, none => r.apply (p.meet true)
    | _, some _ => .error (.refused .tooManyValues)

def readLetter (r : Reader) (letter : UInt8) : Except Ending Reader :=
  match c.lettered? letter with
  | none => .error (.refused .unknownArgument)
  | some p => r.apply (p.meet false)

def readPlain (r : Reader) (w : Argument) : Except Ending Reader :=
  match r.pending with
  | .awaiting p => .ok { r with pending := .value p w }
  | _ => r.readPositional c w

def readArgument (r : Reader) (w : Argument) : Except Ending Reader :=
  if r.trailing then r.readPositional c w
  else
    match Token.ofArgument w with
    | .separator => .ok { r with trailing := true }
    | .long name value? => r.readLong c name value?
    | .short letters => letters.foldlM (readLetter c) r
    | .plain => r.readPlain c w

end Reader

def parse (c : Command) (arguments : List Argument) : Except Ending Matches := do
  let r ← arguments.foldlM (Reader.readArgument c) .start
  c.complete (← r.settled)

/-- The options that the arguments after the program's own name choose. They are texts
here, so the path among them is one. -/
def read (arguments : List String) : Except Ending Options :=
  (readWith (parse command) (arguments.map .ofText)).map
    (·.mapProgram fun path => path.text?.getD "")

end ByteByteJump.CommandLine
