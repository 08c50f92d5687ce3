/-! Samples of sound and the numbers devices take for them.

A sample is a signed byte: a level of `s` stands for the amplitude `s / 128`,
between -1 and 1. Devices take amplitudes as single-precision numbers or scaled
to integers of 16 or 32 bits. Every one of these forms holds a level exactly. -/
namespace ByteByteJump.Audio

abbrev Sample := Int8

namespace Sample

def silence : Sample := 0

/-- A byte of memory as a sample. -/
def ofByte (b : UInt8) : Sample := b.toInt8

/-- The amplitude as the bits of a single-precision number: sign, exponent
biased by 127, and the 23 bits after the leading one. -/
def single (s : Sample) : UInt32 :=
  let magnitude := s.toInt.natAbs
  if magnitude = 0 then 0
  else
    let exponent := magnitude.log2
    let sign := if s < 0 then 1 <<< 31 else 0
    let fraction := magnitude <<< (23 - exponent) - 1 <<< 23
    UInt32.ofNat (sign + (127 + exponent - 7) <<< 23 + fraction)

/-- The amplitude in units of `1 / 2 ^ 15`. -/
def signed16 (s : Sample) : Int16 := s.toInt16 * 256

/-- The amplitude in units of `1 / 2 ^ 31`. -/
def signed32 (s : Sample) : Int32 := s.toInt32 * 16777216

/-- The amplitude in units of `1 / 2 ^ 15`, counted from -1. -/
def unsigned16 (s : Sample) : UInt16 := s.signed16.toUInt16 + 32768

end Sample

end ByteByteJump.Audio
