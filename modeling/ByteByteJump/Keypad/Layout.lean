import ByteByteJump.Keypad

/-! Where the hexadecimal keys lie on a typewriter keyboard.

The four rows of the keypad are the left ends of the four rows of the keyboard:

    1 2 3 C      1 2 3 4
    4 5 6 D      Q W E R
    7 8 9 E      A S D F
    A 0 B F      Z X C V

Any other key of the keyboard stands for none. -/
namespace ByteByteJump.Keypad

/-- The keyboard's keys by name, row by row, with the number of the hexadecimal
key of each. -/
def layout : List (String × UInt8) :=
  [("Key1", 0x1), ("Key2", 0x2), ("Key3", 0x3), ("Key4", 0xC),
    ("Q", 0x4), ("W", 0x5), ("E", 0x6), ("R", 0xD),
    ("A", 0x7), ("S", 0x8), ("D", 0x9), ("F", 0xE),
    ("Z", 0xA), ("X", 0x0), ("C", 0xB), ("V", 0xF)]

/-- The hexadecimal key that a key of the keyboard stands for. -/
def hexKey? (name : String) : Option HexKey := (layout.lookup name).map HexKey.ofByte

/-- The keypad while certain keys of the keyboard are down. -/
def ofKeyboard (names : List String) : Keypad := released.pressAll (names.filterMap hexKey?)

theorem isDown_ofKeyboard (names : List String) (k : HexKey) :
    (ofKeyboard names).isDown k = true ↔ ∃ name ∈ names, hexKey? name = some k := by
  simp [ofKeyboard, isDown_pressAll]

end ByteByteJump.Keypad
