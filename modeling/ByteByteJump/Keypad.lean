/-! The sixteen hexadecimal keys.

A keypad tells for each key whether it is down. Programs see it as sixteen bits,
key 0 in the highest; the machine puts them into the first two bytes of memory
at the start of a frame. Keys are named by bytes of which the low four bits
count. -/
namespace ByteByteJump

abbrev HexKey := Fin 16

/-- The key that the low four bits of a byte name. -/
def HexKey.ofByte (n : UInt8) : HexKey := Fin.ofNat 16 n.toNat

/-- Which keys are down. -/
structure Keypad where
  keys : Vector Bool 16
deriving DecidableEq, Repr

namespace Keypad

/-- No key is down. -/
def released : Keypad := ⟨Vector.replicate 16 false⟩

def isDown (p : Keypad) (k : HexKey) : Bool := p.keys[k]

def press (p : Keypad) (k : HexKey) : Keypad := ⟨p.keys.set k true⟩

def pressAll (p : Keypad) (ks : List HexKey) : Keypad := ks.foldl press p

/-- The keys as bits, key 0 the most significant. -/
def bits (p : Keypad) : BitVec 16 :=
  (BitVec.ofBoolListBE p.keys.toList).cast (by simp)

def pack (p : Keypad) : UInt16 := ⟨p.bits⟩

/-- The packed keys as two bytes, most significant first. -/
def bytes (p : Keypad) : List UInt8 := [(p.pack >>> 8).toUInt8, p.pack.toUInt8]

@[simp] theorem isDown_released (k : HexKey) : released.isDown k = false := by
  simp [released, isDown]

theorem isDown_press (p : Keypad) (j k : HexKey) :
    (p.press j).isDown k = true ↔ k = j ∨ p.isDown k = true := by
  simp only [press, isDown, Fin.getElem_fin, Vector.getElem_set, Fin.ext_iff]
  split <;> grind

theorem isDown_pressAll (p : Keypad) (ks : List HexKey) (k : HexKey) :
    (p.pressAll ks).isDown k = true ↔ k ∈ ks ∨ p.isDown k = true := by
  induction ks generalizing p with
  | nil => simp [pressAll]
  | cons j ks ih =>
    have := ih (p.press j)
    simp only [pressAll, List.foldl_cons] at this ⊢
    rw [this, isDown_press, List.mem_cons]
    grind

/-- Counted from the most significant, bit `k` is key `k`. -/
theorem getMsbD_bits (p : Keypad) (k : HexKey) : p.bits.getMsbD k = p.isDown k := by
  simp [bits, isDown, BitVec.getMsbD_ofBoolListBE]

end Keypad

end ByteByteJump
