import ByteByteJump.CommandLine.Options
import ByteByteJump.Terminal

/-! The texts a command line is explained with.

Each argument has an entry. In short, an entry takes a line: its form, what it
does, and in brackets its default and its choices. In full, it takes a paragraph,
and choices that need explaining are listed one below the other. -/
namespace ByteByteJump.CommandLine

/-- A value that may be chosen, with an explanation if it needs one. -/
structure Choice where
  word : String
  meaning : String

structure Entry where
  /-- The one-letter form, if there is one. -/
  letter : Option Char
  form : String
  summary : String
  default : Option String
  choices : List Choice

/-- The name of the program and its version. -/
def programName : String := "bytepusher"

def versionNumber : String := "0.1.0"

def versionText : String := programName ++ " " ++ versionNumber ++ "\n"

def about : String := "BytePusher virtual machine. Keys 0-F are mapped onto 1234/QWER/ASDF/ZXCV"

def programEntry : Entry :=
  ⟨none, "<PROGRAM>", "Program image, loaded verbatim at address 0", none, []⟩

def scaleEntry : Entry :=
  { letter := none
    form := "--scale <SCALE>"
    summary := "Window scale factor"
    default := some Options.defaultScale.word
    choices := Scale.all.map fun s => ⟨s.word, ""⟩ }

def pacingMeaning : Pacing → String
  | .truncated =>
    "1000 / 60 truncated to 16 ms per frame, measured from each frame's start. " ++
      "Runs about 4% fast, like most BytePusher VMs"
  | .exact => "True 60 Hz: deadlines advance by 1/60 s from the previous deadline"
  | .unlimited => "Never wait"

def pacingEntry : Entry :=
  { letter := none
    form := "--pacing <PACING>"
    summary := "Frame timing: truncated (16 ms), exact (1/60 s) or unlimited"
    default := some Options.defaultPacing.word
    choices := Pacing.all.map fun p => ⟨p.word, pacingMeaning p⟩ }

def muteEntry : Entry := ⟨none, "--mute", "Don't open an audio device", none, []⟩

def framesEntry : Entry := ⟨none, "--frames <FRAMES>", "Stop after this many frames", none, []⟩

def verboseEntry : Entry :=
  ⟨some 'v', "--verbose...", "More logging (-v info, -vv debug, -vvv trace)", none, []⟩

/-- Each form of help points to the other. -/
def helpEntry (full : Bool) : Entry :=
  let other := if full then "see a summary with '-h'" else "see more with '--help'"
  ⟨some 'h', "--help", "Print help (" ++ other ++ ")", none, []⟩

def versionEntry : Entry := ⟨some 'V', "--version", "Print version", none, []⟩

def optionEntries (full : Bool) : List Entry :=
  [scaleEntry, pacingEntry, muteEntry, framesEntry, verboseEntry, helpEntry full, versionEntry]

namespace Entry

/-- The form of an option behind a column for its letter. -/
def labelled (e : Entry) : String :=
  match e.letter with
  | some c => "-" ++ c.toString ++ ", " ++ e.form
  | none => "    " ++ e.form

def defaultNote (e : Entry) : List String :=
  match e.default with
  | some word => ["[default: " ++ word ++ "]"]
  | none => []

def choicesNote (e : Entry) : List String :=
  if e.choices.isEmpty then []
  else ["[possible values: " ++ ", ".intercalate (e.choices.map (·.word)) ++ "]"]

/-- Whether some choice needs explaining. -/
def explained (e : Entry) : Bool := e.choices.any fun c => c.meaning ≠ ""

end Entry

/-- Spaces up to a width. -/
def pad (width : Nat) (text : String) : String :=
  text ++ String.ofList (List.replicate (width - text.length) ' ')

/-- The width of the widest of some texts. -/
def widest (texts : List String) : Nat := (texts.map String.length).foldl max 0

/-- A line for an entry under a label, its text starting at a common column. -/
def shortLine (width : Nat) (label : String) (e : Entry) : String :=
  "  " ++ pad width label ++ "  " ++ " ".intercalate (e.summary :: e.defaultNote ++ e.choicesNote)

def shortLines (label : Entry → String) (entries : List Entry) : List String :=
  let width := widest (entries.map label)
  entries.map fun e => shortLine width (label e) e

/-- The margin of a paragraph. -/
def margin : String := "          "

def choiceLines (choices : List Choice) : List String :=
  let width := widest (choices.map (·.word)) + 1
  choices.map fun c => margin ++ "- " ++ pad width (c.word ++ ":") ++ " " ++ c.meaning

/-- What follows the summary in a paragraph. -/
def details (e : Entry) : List String :=
  let listed :=
    if e.explained then ["", margin ++ "Possible values:"] ++ choiceLines e.choices else []
  let notes := e.defaultNote ++ if e.explained then [] else e.choicesNote
  listed ++ if notes.isEmpty then [] else margin :: notes.map (margin ++ ·)

def paragraph (label : String) (e : Entry) : List String :=
  ["  " ++ label, margin ++ e.summary] ++ details e

/-- Paragraphs with an empty line between two. -/
def paragraphs (label : Entry → String) : List Entry → List String
  | [] => []
  | [e] => paragraph (label e) e
  | e :: rest => paragraph (label e) e ++ "" :: paragraphs label rest

/-- The help for a program called by a name, of which it shows the text only. -/
def helpText (name : String) (full : Bool) : String :=
  let entries := if full then paragraphs else shortLines
  let lines :=
    [about, "", "Usage: " ++ Terminal.plain .ends name ++ " [OPTIONS] <PROGRAM>", "", "Arguments:"] ++
      entries (·.form) [programEntry] ++ ["", "Options:"] ++
      entries (·.labelled) (optionEntries full)
  String.join (lines.map (· ++ "\n"))

/-- The name to call a program by: the last part of the path it was started
with, where that names a file. -/
def nameOfPath (path : String) : String :=
  match ((path.splitOn "/").filter fun part => part ≠ "" ∧ part ≠ ".").getLast? with
  | none => programName
  | some ".." => programName
  | some part => part

end ByteByteJump.CommandLine
