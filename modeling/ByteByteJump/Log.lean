import ByteByteJump.CommandLine.Help
import ByteByteJump.Notice
import ByteByteJump.Terminal

/-! The log: a line for each notice, up to a level.

A line is headed by the level and the program. A message of several lines has
its later ones indented, so that a head is never mistaken, and a log that is read
as plain text carries no controls: what a message holds of them is taken out, from
each line of the log on its own. -/
namespace ByteByteJump

/-- A message with its lines after the first indented. -/
def indented (message : String) : String := "\n    ".intercalate (message.splitOn "\n")

namespace Notice

/-- The line of a notice with its controls, its level in a column of five. -/
def rawLine (n : Notice) : String :=
  "[" ++ CommandLine.pad 5 n.level.name ++ " " ++ CommandLine.programName ++ "] " ++
    indented n.text ++ "\n"

def logLine (n : Notice) : String := Terminal.plain .pauses n.rawLine

end Notice

/-- The log of some notices, as far as a level shows it. -/
def logText (limit : Level) (notices : List Notice) : String :=
  String.join ((notices.filter (·.level.shownAt limit)).map Notice.logLine)

end ByteByteJump
