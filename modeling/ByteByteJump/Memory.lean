import ByteByteJump.Address
import ByteByteJump.Instruction

/-! The memory of a machine: a fixed number of bytes.

A full memory holds a byte for every address that an instruction can spell. A
smaller one is a machine for tests: there an address may name no byte, and the
reads and writes here answer `none` for it. Nothing changes the number of bytes.
An image is loaded at address 0, with zeros after it. `write` puts bytes down
one after the other and stops at the first that has no place. -/
namespace ByteByteJump

structure Memory where
  bytes : ByteArray

namespace Memory

/-- `2 ^ k` zeros. -/
def zeroBlock : Nat → ByteArray
  | 0 => ByteArray.empty.push 0
  | k + 1 => zeroBlock k ++ zeroBlock k

/-- `n` zeros, cut from the next power of two. -/
def zeros (n : Nat) : ByteArray := (zeroBlock ((n - 1).log2 + 1)).extract 0 n

/-- A memory of `n` bytes, all zero. -/
def blank (n : Nat) : Memory := ⟨zeros n⟩

/-- A byte for every address of three bytes. -/
def full : Memory := blank Address.reach

def size (m : Memory) : Nat := m.bytes.size

/-- The byte at an address. -/
def get? (m : Memory) (a : Address) : Option UInt8 :=
  if h : a.toNat < m.bytes.size then some m.bytes[a.toNat] else none

/-- The memory with one byte replaced; the same memory if there is no such byte. -/
def set (m : Memory) (a : Address) (v : UInt8) : Memory :=
  if h : a.toNat < m.bytes.size then ⟨m.bytes.set a.toNat v h⟩ else m

/-- One byte copied over another; the same memory if either is missing. -/
def copy (m : Memory) (source target : Address) : Memory :=
  match m.get? source with
  | some v => m.set target v
  | none => m

/-- The `len` bytes from `start` on, if the memory reaches that far. -/
def slice? (m : Memory) (start len : Nat) : Option ByteArray :=
  if start + len ≤ m.size then some (m.bytes.extract start (start + len)) else none

/-- Two bytes as a number, most significant first. -/
def word? (m : Memory) (a : Address) : Option UInt16 :=
  if h : a.toNat + 2 ≤ m.bytes.size then
    some (m.bytes[a.toNat].toUInt16 * 256 + m.bytes[a.toNat + 1].toUInt16)
  else none

/-- Three bytes as an address. -/
def address? (m : Memory) (a : Address) : Option Address :=
  if h : a.toNat + 3 ≤ m.bytes.size then
    some (Address.ofBytes m.bytes[a.toNat] m.bytes[a.toNat + 1] m.bytes[a.toNat + 2])
  else none

/-- The nine bytes from an address on, as an instruction. -/
def instruction? (m : Memory) (a : Address) : Option Instruction :=
  if h : a.toNat + Instruction.width ≤ m.bytes.size then
    have : a.toNat + 9 ≤ m.bytes.size := h
    some
      { source := Address.ofBytes m.bytes[a.toNat] m.bytes[a.toNat + 1] m.bytes[a.toNat + 2]
        target := Address.ofBytes m.bytes[a.toNat + 3] m.bytes[a.toNat + 4] m.bytes[a.toNat + 5]
        next := Address.ofBytes m.bytes[a.toNat + 6] m.bytes[a.toNat + 7] m.bytes[a.toNat + 8] }
  else none

/-- Every byte zero. -/
def clear (m : Memory) : Memory := blank m.size

/-- The image at address 0 and zeros after it, if it fits. -/
def load? (m : Memory) (image : ByteArray) : Option Memory :=
  if image.size ≤ m.size then some ⟨image ++ zeros (m.size - image.size)⟩ else none

/-- Puts bytes down from an address on. The flag tells whether each had a place;
those before the first that had none stay written. -/
def write (m : Memory) (a : Address) : List UInt8 → Memory × Bool
  | [] => (m, true)
  | v :: vs => if a.toNat < m.size then (m.set a v).write (a + 1) vs else (m, false)

/-! ### Sizes -/

theorem zeroBlock_data (k : Nat) : (zeroBlock k).data = Array.replicate (1 <<< k) 0 := by
  induction k with
  | zero => rfl
  | succ k ih => simp [zeroBlock, ih, Nat.shiftLeft_eq, Nat.pow_succ, Nat.mul_two]

theorem zeros_data (n : Nat) : (zeros n).data = Array.replicate n 0 := by
  have h : n ≤ 1 <<< ((n - 1).log2 + 1) := by
    have := @Nat.lt_log2_self (n - 1)
    rw [Nat.one_shiftLeft]
    omega
  simp [zeros, zeroBlock_data, Nat.min_eq_left h]

@[simp] theorem size_zeros (n : Nat) : (zeros n).size = n := by
  rw [← ByteArray.size_data, zeros_data, Array.size_replicate]

@[simp] theorem size_blank (n : Nat) : (blank n).size = n := size_zeros n

@[simp] theorem size_set (m : Memory) (a : Address) (v : UInt8) : (m.set a v).size = m.size := by
  unfold set
  split
  · simp [size, ← ByteArray.size_data]
  · rfl

@[simp] theorem size_copy (m : Memory) (source target : Address) :
    (m.copy source target).size = m.size := by
  unfold copy
  split <;> simp

@[simp] theorem size_clear (m : Memory) : m.clear.size = m.size := size_blank _

theorem size_load {m n : Memory} {image : ByteArray} (h : m.load? image = some n) :
    n.size = m.size := by
  unfold load? at h
  split at h
  · cases h
    simp only [size, ByteArray.size_append, size_zeros] at *
    omega
  · cases h

theorem size_write (m : Memory) (a : Address) (vs : List UInt8) :
    (m.write a vs).1.size = m.size := by
  induction vs generalizing m a with
  | nil => rfl
  | cons v vs ih =>
    unfold write
    split
    · rw [ih, size_set]
    · rfl

/-! ### Reading back

The bytes as an array are the view in which reads and writes are plain lookups
and updates. -/

theorem get?_eq (m : Memory) (a : Address) : m.get? a = m.bytes.data[a.toNat]? := by
  unfold get?
  split
  next h => exact (Array.getElem?_eq_getElem h).symm
  next h => exact (Array.getElem?_eq_none (Nat.le_of_not_lt h)).symm

theorem get?_eq_none_iff (m : Memory) (a : Address) : m.get? a = none ↔ m.size ≤ a.toNat := by
  simp [get?_eq, size]

theorem isSome_get? (m : Memory) (a : Address) : (m.get? a).isSome ↔ a.toNat < m.size := by
  simp [get?_eq, size]

theorem data_set (m : Memory) (a : Address) (v : UInt8) :
    (m.set a v).bytes.data = m.bytes.data.setIfInBounds a.toNat v := by
  unfold set
  split
  next h => simp [Array.setIfInBounds, h]
  next h => simp [Array.setIfInBounds, h]

/-- A byte just written reads back, and no other byte moved. -/
theorem get?_set (m : Memory) (a b : Address) (v : UInt8) (h : a.toNat < m.size) :
    (m.set a v).get? b = if b = a then some v else m.get? b := by
  have h : a.toNat < m.bytes.data.size := h
  by_cases hb : b = a
  · rw [hb, get?_eq, data_set, if_pos rfl, Array.getElem?_setIfInBounds_self_of_lt h]
  · have : a.toNat ≠ b.toNat := fun e => hb (UInt32.toNat_inj.1 e.symm)
    simp [hb, get?_eq, data_set, this]

end Memory

end ByteByteJump
