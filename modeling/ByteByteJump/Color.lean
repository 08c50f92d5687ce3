/-! The colours of a picture.

A byte of a picture numbers a colour. The first 216 numbers are a cube with six
levels to each of red, green and blue, blue changing fastest; the others are
black. -/
namespace ByteByteJump

structure Color where
  red : UInt8
  green : UInt8
  blue : UInt8
deriving DecidableEq, Repr

namespace Color

def black : Color := ⟨0, 0, 0⟩

/-- The number of levels of each component. -/
def levels : UInt8 := 6

/-- The distance between two levels: five of them make full brightness. -/
def spacing : UInt8 := 0x33

/-- The colours of the cube. -/
def cubeSize : UInt8 := levels * levels * levels

/-- The colour with a number. -/
def ofNumber (v : UInt8) : Color :=
  if cubeSize ≤ v then black
  else
    { red := v / (levels * levels) * spacing
      green := v / levels % levels * spacing
      blue := v % levels * spacing }

/-- Red, green and blue in one word, blue lowest. -/
def packed (c : Color) : UInt32 :=
  c.red.toUInt32 <<< 16 ||| c.green.toUInt32 <<< 8 ||| c.blue.toUInt32

/-- The packed colour of every number. -/
def palette : Vector UInt32 256 := Vector.ofFn fun v => (ofNumber v.val.toUInt8).packed

end Color

end ByteByteJump
