/-! What a text shows once the controls for a terminal are taken out.

A program steers a terminal with control characters and with sequences that an
escape character opens. Taken as text, both go, and everything else stays: the
printable characters and the blank ones. Where a sequence ends depends on its
kind. A short sequence and a control sequence have a last character, a command
has a bell, and a string has a terminator, which stands alone as a byte and so
ends the string inside any character that is encoded with it. Everywhere an
escape starts over and a cancellation goes back to text.

A blank control character is shown even inside a short or a control sequence.
Text follows it, and what becomes of the sequence after that is a choice. -/
namespace ByteByteJump.Terminal

/-! ### Characters -/

/-- A control character that stands for space between others. -/
def isBlankControl (c : Char) : Bool := c = '\t' || c = '\n' || c = '\x0c' || c = '\r'

/-- Whether text shows a character. -/
def isShown (c : Char) : Bool := isBlankControl c || (' ' ≤ c && c ≠ '\x7f')

def within (first last c : Char) : Bool := first ≤ c && c ≤ last

/-- Whether a character ends a string: one of its bytes is the terminator. -/
def endsString (c : Char) : Bool := (String.utf8EncodeChar c).contains 0x9c

/-! ### Sequences -/

/-- What a character is part of. -/
inductive Mode where
  | text
  /-- A sequence of a kind still unknown, after its escape. -/
  | escape
  /-- A short sequence, before its last character. -/
  | short
  | control
  /-- The head of a device control, at its start. -/
  | device
  | deviceParameter
  | deviceIntermediate
  /-- The body of a device control, or a string of another kind. -/
  | string
  /-- A command to the system the terminal runs on. -/
  | command
deriving DecidableEq, Repr

namespace Mode

/-- What comes after an escape. -/
def opened (c : Char) : Mode :=
  if within ' ' '/' c then short
  else if c = '[' then control
  else if c = ']' then command
  else if c = 'P' then device
  else if c = 'X' ∨ c = '^' ∨ c = '_' then string
  else if within '0' '~' c then text
  else escape

/-- The mode after a character that neither starts a sequence over nor cancels it. -/
def advance (c : Char) : Mode → Mode
  | text => text
  | escape => opened c
  | short => if within '0' '~' c then text else short
  | control => if within '@' '~' c then text else control
  | device =>
    if within ' ' '/' c then deviceIntermediate
    else if within '0' '?' c then deviceParameter
    else if within '@' '~' c then string
    else device
  | deviceParameter =>
    if within ' ' '/' c then deviceIntermediate
    else if within '<' '~' c then string
    else deviceParameter
  | deviceIntermediate => if within '0' '~' c then string else deviceIntermediate
  | string => if endsString c then text else string
  | command => if c = '\x07' then text else command

/-- The mode after a character. -/
def next (m : Mode) (c : Char) : Mode :=
  if c = '\x1b' then escape
  else if c = '\x18' ∨ c = '\x1a' then text
  else m.advance c

/-- Whether a blank control character is shown inside a sequence. -/
def admitsBlank : Mode → Bool
  | escape | short | control => true
  | _ => false

/-- Whether a character is shown. -/
def shows (m : Mode) (c : Char) : Bool :=
  match m with
  | text => isShown c
  | m => m.admitsBlank && isBlankControl c

end Mode

/-! ### Reading a text -/

/-- What becomes of a sequence that a blank has interrupted. -/
inductive Interruption where
  /-- The sequence is over. -/
  | ends
  /-- The sequence goes on at the next character that is not shown, unless a
  character of several bytes comes first. -/
  | pauses
deriving DecidableEq, Repr

structure Reading where
  mode : Mode
  /-- Whether text is shown, the sequence being interrupted. -/
  interrupted : Bool
deriving DecidableEq, Repr

namespace Reading

def start : Reading := ⟨.text, false⟩

def shows (r : Reading) (c : Char) : Bool := if r.interrupted then isShown c else r.mode.shows c

def next (i : Interruption) (r : Reading) (c : Char) : Reading :=
  if r.interrupted && isShown c then if c.utf8Size = 1 then r else start
  else if r.mode.admitsBlank && isBlankControl c then
    match i with
    | .ends => start
    | .pauses => { r with interrupted := true }
  else ⟨r.mode.next c, false⟩

end Reading

/-- The characters shown of some, from within a text. -/
def shown (i : Interruption) : Reading → List Char → List Char
  | _, [] => []
  | r, c :: cs => if r.shows c then c :: shown i (r.next i c) cs else shown i (r.next i c) cs

/-- A text without its controls. -/
def plain (i : Interruption) (text : String) : String :=
  String.ofList (shown i .start text.toList)

end ByteByteJump.Terminal
