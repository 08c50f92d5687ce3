import ByteByteJump.CommandLine.Options

/-! The parameters that are declared, and the options made of them.

The program declares its parameters: the names each goes by, what meeting it does, which
values it takes, and what it is if it is not given (`command`). Reading the arguments is left
to a parser, which knows this declaration and nothing else of the program. What the parser
found it hands over by parameter (`Matches`), and the options are made of that
(`Options.ofMatches`). So any parser can be put in (`readWith`); the one that comes with the
program is `parse` in `Reader`.

The system gives arguments as bytes. Mostly they are a text, but a path need not be one. -/
namespace ByteByteJump.CommandLine

/-- An argument as the system gives it. -/
abbrev Argument := List UInt8

namespace Argument

def dash : UInt8 := '-'.toUInt8

def equals : UInt8 := '='.toUInt8

def ofText (text : String) : Argument := text.toUTF8.data.toList

/-- The text, if it is one. -/
def text? (w : Argument) : Option String := String.fromUTF8? ⟨w.toArray⟩

/-- The text read as something, if it is a text and can be read so. -/
def read? {α : Type} (parse : String → Option α) (w : Argument) : Option α := w.text?.bind parse

theorem text?_ofText (text : String) : text? (ofText text) = some text :=
  dif_pos text.isValidUTF8

theorem read?_ofText {α : Type} (parse : String → Option α) (text : String) :
    read? parse (ofText text) = parse text := by
  rw [read?, text?_ofText, Option.bind_some]

end Argument

/-! ### What reading comes to -/

inductive Refusal where
  /-- A value that is missing or not among the choices. -/
  | invalidValue
  /-- A value that is no number of frames. -/
  | valueValidation
  | unknownArgument
  | missingRequiredArgument
  /-- An option given twice. -/
  | argumentConflict
  /-- A value for an option without one. -/
  | tooManyValues
deriving DecidableEq, Repr

/-- Why reading ends without options. -/
inductive Ending where
  | refused (r : Refusal)
  /-- Help was asked for, in full or in short. -/
  | help (full : Bool)
  | version
deriving DecidableEq, Repr

/-! ### Declarations -/

/-- What it does to meet a parameter. -/
inductive Action where
  /-- It gets the value that comes with it. -/
  | set
  /-- It is turned on. -/
  | switch
  /-- It is counted how often. -/
  | count
  | help
  | version
deriving DecidableEq, Repr

structure Parameter where
  /-- What the program knows it by. -/
  id : String
  /-- The name after two dashes. -/
  long? : Option String
  /-- The letter after a single dash. -/
  letter? : Option UInt8
  action : Action
  /-- Why a value is refused, unless it is taken. -/
  refuses : Argument → Option Refusal
  /-- The value if none is given. -/
  default? : Option String
  required : Bool

/-- Without a name a parameter is told by its place. -/
def Parameter.isPositional (p : Parameter) : Bool := p.long?.isNone && p.letter?.isNone

/-- The name as it stands in an argument. -/
def Parameter.name? (p : Parameter) : Option Argument := p.long?.map .ofText

abbrev Command := List Parameter

/-- Takes what can be read. -/
def refusesUnread {α : Type} (parse : String → Option α) (r : Refusal) (w : Argument) :
    Option Refusal :=
  if (w.read? parse).isSome then none else some r

/-- A count of frames: decimal digits, perhaps after a plus sign, for a number
of 64 bits. -/
def count? (text : String) : Option Nat :=
  let digits := match text.toList with
    | '+' :: digits => digits
    | digits => digits
  if digits ≠ [] ∧ digits.all Char.isDigit ∧ Nat.ofDigitChars 10 digits 0 < UInt64.size then
    some (Nat.ofDigitChars 10 digits 0)
  else none

namespace Parameter

/-- A path is any argument that is not empty. -/
def program : Parameter where
  id := "program"
  long? := none
  letter? := none
  action := .set
  refuses w := if w = [] then some .invalidValue else none
  default? := none
  required := true

def scale : Parameter where
  id := "scale"
  long? := some "scale"
  letter? := none
  action := .set
  refuses := refusesUnread Scale.ofWord? .invalidValue
  default? := some Options.defaultScale.word
  required := false

def pacing : Parameter where
  id := "pacing"
  long? := some "pacing"
  letter? := none
  action := .set
  refuses := refusesUnread Pacing.ofWord? .invalidValue
  default? := some Options.defaultPacing.word
  required := false

def mute : Parameter where
  id := "mute"
  long? := some "mute"
  letter? := none
  action := .switch
  refuses _ := none
  default? := none
  required := false

def frames : Parameter where
  id := "frames"
  long? := some "frames"
  letter? := none
  action := .set
  refuses := refusesUnread count? .valueValidation
  default? := none
  required := false

def verbose : Parameter where
  id := "verbose"
  long? := some "verbose"
  letter? := some 'v'.toUInt8
  action := .count
  refuses _ := none
  default? := none
  required := false

/-- Every command can be asked for help. -/
def help : Parameter where
  id := "help"
  long? := some "help"
  letter? := some 'h'.toUInt8
  action := .help
  refuses _ := none
  default? := none
  required := false

def version : Parameter where
  id := "version"
  long? := some "version"
  letter? := some 'V'.toUInt8
  action := .version
  refuses _ := none
  default? := none
  required := false

end Parameter

/-- The parameters of the program. -/
def command : Command :=
  [.program, .scale, .pacing, .mute, .frames, .verbose, .help, .version]

/-! ### From what is found to options -/

/-- What stands on a command line for one parameter. -/
structure Occurrence where
  /-- Of which parameter. -/
  id : String
  value? : Option Argument
deriving DecidableEq

/-- The most that a parameter is counted. -/
def mostCounted : Nat := 255

/-- What a parser found, by parameter. -/
structure Matches where
  /-- The value that was given, or else the default. -/
  value? : String → Option Argument
  isOn : String → Bool
  count : String → Nat

/-- The options that matches are for. -/
def Options.ofMatches (m : Matches) : Except Ending (Options Argument) :=
  match m.value? Parameter.program.id, (m.value? Parameter.scale.id).bind (·.read? Scale.ofWord?),
    (m.value? Parameter.pacing.id).bind (·.read? Pacing.ofWord?) with
  | some program, some scale, some pacing => .ok
    { program
      scale
      pacing
      mute := m.isOn Parameter.mute.id
      frames := (m.value? Parameter.frames.id).bind (·.read? count?)
      verbose := m.count Parameter.verbose.id }
  | _, _, _ => .error (.refused .missingRequiredArgument)

/-- The options that the arguments after the program's own name choose, as a parser reads
them. -/
def readWith (parse : List Argument → Except Ending Matches) (arguments : List Argument) :
    Except Ending (Options Argument) :=
  (parse arguments).bind Options.ofMatches

end ByteByteJump.CommandLine
