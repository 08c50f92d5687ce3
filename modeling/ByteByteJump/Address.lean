/-! Addresses and their spellings.

Programs hold addresses of three bytes, most significant first, so what an
instruction can name stays below `2 ^ 24`. The program counter may be set from
outside to any 32-bit word, and a word too large for the memory has to be seen
as such: an address is therefore a 32-bit word, and three bytes are a way to
write one. Writing keeps the low 24 bits, reading gives them back. -/
namespace ByteByteJump

abbrev Address := UInt32

namespace Address

/-- The number of addresses that three bytes can spell. -/
def reach : Nat := 0x1000000

/-- The address spelled by three bytes, most significant first. -/
def ofBytes (high middle low : UInt8) : Address :=
  high.toUInt32 * 65536 + middle.toUInt32 * 256 + low.toUInt32

/-- The address spelled by the first three bytes, if there are three. -/
def ofBytes? : List UInt8 → Option Address
  | high :: middle :: low :: _ => some (ofBytes high middle low)
  | _ => none

def high (a : Address) : UInt8 := (a >>> 16).toUInt8

def middle (a : Address) : UInt8 := (a >>> 8).toUInt8

def low (a : Address) : UInt8 := a.toUInt8

theorem toNat_ofBytes (h m l : UInt8) :
    (ofBytes h m l).toNat = h.toNat * 65536 + m.toNat * 256 + l.toNat := by
  have := h.toNat_lt; have := m.toNat_lt; have := l.toNat_lt
  simp only [ofBytes, UInt32.toNat_add, UInt32.toNat_mul, UInt8.toNat_toUInt32, UInt32.reduceToNat]
  omega

theorem ofBytes_lt (h m l : UInt8) : (ofBytes h m l).toNat < reach := by
  have := h.toNat_lt; have := m.toNat_lt; have := l.toNat_lt
  rw [toNat_ofBytes, reach]
  omega

theorem toNat_high (a : Address) : (high a).toNat = a.toNat / 65536 % 256 := by
  simp [high, Nat.shiftRight_eq_div_pow]

theorem toNat_middle (a : Address) : (middle a).toNat = a.toNat / 256 % 256 := by
  simp [middle, Nat.shiftRight_eq_div_pow]

theorem toNat_low (a : Address) : (low a).toNat = a.toNat % 256 := by
  simp [low]

/-- Three bytes hold the low 24 bits. -/
theorem toNat_ofBytes_bytes (a : Address) :
    (ofBytes (high a) (middle a) (low a)).toNat = a.toNat % reach := by
  rw [toNat_ofBytes, toNat_high, toNat_middle, toNat_low, reach]
  omega

theorem high_ofBytes (h m l : UInt8) : high (ofBytes h m l) = h := by
  have := h.toNat_lt; have := m.toNat_lt; have := l.toNat_lt
  apply UInt8.toNat_inj.1
  rw [toNat_high, toNat_ofBytes]
  omega

theorem middle_ofBytes (h m l : UInt8) : middle (ofBytes h m l) = m := by
  have := h.toNat_lt; have := m.toNat_lt; have := l.toNat_lt
  apply UInt8.toNat_inj.1
  rw [toNat_middle, toNat_ofBytes]
  omega

theorem low_ofBytes (h m l : UInt8) : low (ofBytes h m l) = l := by
  have := h.toNat_lt; have := m.toNat_lt; have := l.toNat_lt
  apply UInt8.toNat_inj.1
  rw [toNat_low, toNat_ofBytes]
  omega

/-- Addresses read in hexadecimal, six digits wide or as many as they need. -/
def text (a : Address) : String :=
  String.ofList ('0' :: 'x' :: List.leftpad 6 '0' (Nat.toDigits 16 a.toNat))

end Address

end ByteByteJump
