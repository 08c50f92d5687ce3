import ByteByteJump.Notice

/-! What a command line chooses. -/
namespace ByteByteJump.CommandLine

/-- How large a pixel of the picture is drawn. -/
inductive Scale where
  | one
  | two
  | four
deriving DecidableEq, Repr

namespace Scale

def name : Scale → String
  | one => "X1"
  | two => "X2"
  | four => "X4"

/-- How it is written as a choice. -/
def word : Scale → String
  | one => "1"
  | two => "2"
  | four => "4"

def all : List Scale := [one, two, four]

def ofWord? (w : String) : Option Scale := all.find? fun s => s.word = w

theorem ofWord?_word (s : Scale) : ofWord? s.word = some s := by
  cases s <;> rfl

end Scale

/-- The options, with a path as the system gives it or as a text. -/
structure Options (Path : Type := String) where
  /-- The path of the program image. -/
  program : Path
  scale : Scale
  pacing : Pacing
  mute : Bool
  /-- How many frames to run, without a limit if none is given. -/
  frames : Option Nat
  /-- How often more logging was asked for. -/
  verbose : Nat
deriving DecidableEq, Repr

namespace Options

def defaultScale : Scale := .two

def defaultPacing : Pacing := .truncated

variable {Path : Type}

/-- The same options with their path in another form. -/
def mapProgram {Other : Type} (f : Path → Other) (o : Options Path) : Options Other :=
  ⟨f o.program, o.scale, o.pacing, o.mute, o.frames, o.verbose⟩

/-- What the log shows. -/
def level (o : Options Path) : Level :=
  match o.verbose with
  | 0 => .warn
  | 1 => .info
  | 2 => .debug
  | _ => .trace

end Options

end ByteByteJump.CommandLine
