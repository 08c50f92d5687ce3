/-! Times and how they read.

Instants and the spans between them are counted in nanoseconds. A span reads in
the largest unit of which it holds at least one, with as many decimals as it
needs. -/
namespace ByteByteJump.Time

/-- A unit of time: how many nanoseconds it holds, a power of ten, how many
decimal places tell them apart, and its name. -/
structure Unit where
  size : Nat
  places : Nat
  name : String
deriving DecidableEq, Repr

/-- The units a span may read in, largest first. -/
def units : List Unit := [⟨1000000000, 9, "s"⟩, ⟨1000000, 6, "ms"⟩, ⟨1000, 3, "µs"⟩]

/-- The unit that no span is too small for. -/
def smallest : Unit := ⟨1, 0, "ns"⟩

/-- `n` in a number of decimal places, up to the last digit that is not zero. -/
def decimals (places n : Nat) : List Char :=
  ((List.leftpad places '0' (Nat.toDigits 10 n)).reverse.dropWhile (· = '0')).reverse

/-- A span in a unit. -/
def textIn (u : Unit) (span : Nat) : String :=
  let whole := toString (span / u.size)
  match decimals u.places (span % u.size) with
  | [] => whole ++ u.name
  | ds => whole ++ "." ++ String.ofList ds ++ u.name

def text (span : Nat) : String :=
  textIn ((units.find? fun u => u.size ≤ span).getD smallest) span

end ByteByteJump.Time
