import ByteByteJump.Address

/-! The one instruction and its nine bytes.

ByteByteJump copies the byte at one address to another and jumps to a third.
The three operands lie one after the other, three bytes each. An
`OperandStream` hands them out in order and then nothing for ever, so decoding
a stream from which some operands were already taken fills the missing ones
with zero. Encoding keeps the low 24 bits of each operand; it is the inverse of
decoding on nine bytes. -/
namespace ByteByteJump

/-- Copy the byte at `source` to `target`, then continue at `next`. -/
structure Instruction where
  source : Address
  target : Address
  next : Address
deriving DecidableEq, Repr

/-- The bytes of an instruction not yet read as operands. -/
structure OperandStream where
  bytes : List UInt8
deriving DecidableEq, Repr

namespace OperandStream

def ofBytes (bytes : Vector UInt8 9) : OperandStream := ⟨bytes.toList⟩

/-- Takes one operand, if three bytes are left. -/
def next : OperandStream → Option Address × OperandStream
  | ⟨high :: middle :: low :: rest⟩ => (some (Address.ofBytes high middle low), ⟨rest⟩)
  | s => (none, s)

/-- Takes `n` operands and forgets them. -/
def skip : Nat → OperandStream → OperandStream
  | 0, s => s
  | n + 1, s => skip n s.next.2

/-- What `n` takes in a row give. -/
def take : Nat → OperandStream → List (Option Address)
  | 0, _ => []
  | n + 1, s => s.next.1 :: take n s.next.2

end OperandStream

namespace Instruction

/-- The number of bytes of an instruction. -/
def width : Nat := 9

/-- The operands in the order they are written and checked. -/
def operands (i : Instruction) : List Address := [i.source, i.target, i.next]

/-- The instruction whose operands the stream still holds, zero for each that is
missing. -/
def ofStream (s : OperandStream) : Instruction :=
  let source := s.next
  let target := source.2.next
  let next := target.2.next
  ⟨source.1.getD 0, target.1.getD 0, next.1.getD 0⟩

def decode (bytes : Vector UInt8 9) : Instruction := ofStream (.ofBytes bytes)

def encode (i : Instruction) : Vector UInt8 9 :=
  #v[i.source.high, i.source.middle, i.source.low,
    i.target.high, i.target.middle, i.target.low,
    i.next.high, i.next.middle, i.next.low]

/-- Decoding reads the three groups of bytes in order. -/
theorem decode_mk (a b c d e f g h i : UInt8) :
    decode #v[a, b, c, d, e, f, g, h, i] =
      ⟨Address.ofBytes a b c, Address.ofBytes d e f, Address.ofBytes g h i⟩ := rfl

end Instruction

end ByteByteJump
