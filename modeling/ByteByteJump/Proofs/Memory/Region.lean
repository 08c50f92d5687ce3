import ByteByteJump.Memory

/-! Single bytes and regions of a memory.

A read that may miss is a byte with a condition: `byte` is what the byte at an
address reads as, zero where there is none, and the multi-byte reads are bytes
put together once the memory reaches far enough. A region is the same view of
many bytes in a row; `slice?` gives a region or nothing. -/
namespace ByteByteJump.Memory

/-- The byte at an address, zero where there is none. -/
def byte (m : Memory) (a : Address) : UInt8 := (m.get? a).getD 0

theorem byte_set (m : Memory) (a b : Address) (v : UInt8) (h : a.toNat < m.size) :
    (m.set a v).byte b = if b = a then v else m.byte b := by
  unfold byte
  rw [get?_set m a b v h]
  split <;> rfl

/-- A byte that is there, through its place in the array. -/
theorem getElem_eq_byte (m : Memory) (a : Address) (k : Nat) (ha : a.toNat = k)
    (h : k < m.bytes.size) : m.bytes[k] = m.byte a := by
  subst ha
  unfold byte get?
  rw [dif_pos h]
  rfl

theorem get?_eq_some_byte (m : Memory) (a : Address) (h : a.toNat < m.size) :
    m.get? a = some (m.byte a) := by
  obtain ⟨v, hv⟩ := Option.isSome_iff_exists.1 ((isSome_get? m a).2 h)
  rw [byte, hv]
  rfl

theorem getElem_offset (m : Memory) (a b : Address) (k : Nat) (hb : b.toNat = k)
    (ha : a.toNat + k < 4294967296) (h : a.toNat + k < m.bytes.size) :
    m.bytes[a.toNat + k] = m.byte (a + b) := by
  refine getElem_eq_byte m (a + b) _ ?_ h
  rw [UInt32.toNat_add]
  omega

theorem address?_eq (m : Memory) (a : Address) (h : a.toNat + 3 ≤ m.size)
    (ha : a.toNat + 3 ≤ 4294967296) :
    m.address? a = some (.ofBytes (m.byte a) (m.byte (a + 1)) (m.byte (a + 2))) := by
  unfold address?
  have hbytes : a.toNat + 3 ≤ m.bytes.size := h
  rw [dif_pos hbytes, getElem_eq_byte m a _ rfl, getElem_offset m a 1 1 rfl (by omega),
    getElem_offset m a 2 2 rfl (by omega)]

theorem word?_eq (m : Memory) (a : Address) (h : a.toNat + 2 ≤ m.size)
    (ha : a.toNat + 2 ≤ 4294967296) :
    m.word? a = some ((m.byte a).toUInt16 * 256 + (m.byte (a + 1)).toUInt16) := by
  unfold word?
  have hbytes : a.toNat + 2 ≤ m.bytes.size := h
  rw [dif_pos hbytes, getElem_eq_byte m a _ rfl, getElem_offset m a 1 1 rfl (by omega)]

theorem instruction?_eq (m : Memory) (a : Address) (h : a.toNat + 9 ≤ m.size)
    (ha : a.toNat + 9 ≤ 4294967296) :
    m.instruction? a = some
      ⟨.ofBytes (m.byte a) (m.byte (a + 1)) (m.byte (a + 2)),
        .ofBytes (m.byte (a + 3)) (m.byte (a + 4)) (m.byte (a + 5)),
        .ofBytes (m.byte (a + 6)) (m.byte (a + 7)) (m.byte (a + 8))⟩ := by
  unfold instruction? Instruction.width
  have hbytes : a.toNat + 9 ≤ m.bytes.size := h
  rw [dif_pos hbytes]
  dsimp only
  rw [getElem_eq_byte m a _ rfl, getElem_offset m a 1 1 rfl (by omega),
    getElem_offset m a 2 2 rfl (by omega), getElem_offset m a 3 3 rfl (by omega),
    getElem_offset m a 4 4 rfl (by omega), getElem_offset m a 5 5 rfl (by omega),
    getElem_offset m a 6 6 rfl (by omega), getElem_offset m a 7 7 rfl (by omega),
    getElem_offset m a 8 8 rfl (by omega)]

theorem byte_blank (n : Nat) (a : Address) : (blank n).byte a = 0 := by
  rw [byte, get?_eq, blank, zeros_data, Array.getElem?_replicate]
  split <;> rfl

/-- A byte copied onto itself changes nothing. -/
theorem copy_self (m : Memory) (a : Address) : m.copy a a = m := by
  unfold copy
  cases h : m.get? a with
  | none => rfl
  | some v =>
    rw [get?_eq] at h
    have hlt : a.toNat < m.bytes.data.size := (Array.getElem?_eq_some_iff.1 h).1
    have hdata : (m.set a v).bytes.data = m.bytes.data := by
      rw [data_set]
      apply Array.ext_getElem?
      intro k
      by_cases hk : a.toNat = k
      · rw [← hk, h, Array.getElem?_setIfInBounds_self_of_lt hlt]
      · rw [Array.getElem?_setIfInBounds_ne hk]
    exact congrArg Memory.mk (ByteArray.ext hdata)

/-- Two bytes written where both have a place. -/
theorem write_pair (m : Memory) (a : Address) (v w : UInt8) (h : a.toNat < m.size)
    (h1 : (a + 1).toNat < m.size) : m.write a [v, w] = ((m.set a v).set (a + 1) w, true) := by
  rw [write, if_pos h, write, if_pos (by rw [size_set]; exact h1), write]

/-- Bytes that all have a place are all written. -/
theorem write_of_fits (m : Memory) (a : Address) (vs : List UInt8) (hsize : m.size ≤ 4294967296)
    (h : a.toNat + vs.length ≤ m.size) : (m.write a vs).2 = true := by
  induction vs generalizing m a with
  | nil => rfl
  | cons v vs ih =>
    simp only [List.length_cons] at h
    rw [write, if_pos (by omega)]
    apply ih
    · rw [size_set]
      exact hsize
    · rw [size_set]
      -- Past the last byte of the widest memory the address itself comes round to 0.
      simp only [UInt32.toNat_add, UInt32.reduceToNat]
      have := Nat.mod_le (a.toNat + 1) 4294967296
      omega

/-! ### Regions -/

/-- `p` is the `len` bytes of a memory from `start` on. -/
structure Region (m : Memory) (start len : Nat) (p : ByteArray) : Prop where
  fits : start + len ≤ m.size
  size : p.size = len
  bytes : ∀ k < len, p.data[k]? = m.bytes.data[start + k]?

theorem slice?_eq_some_iff (m : Memory) (start len : Nat) (p : ByteArray) :
    m.slice? start len = some p ↔ m.Region start len p := by
  unfold slice?
  constructor
  · intro h
    split at h
    next hfits =>
      cases h
      have hbytes : start + len ≤ m.bytes.size := hfits
      refine ⟨hfits, ?_, fun k hk => ?_⟩
      · rw [ByteArray.size_extract, Nat.min_eq_left hbytes]
        omega
      · rw [ByteArray.data_extract, Array.getElem?_extract, ByteArray.size_data,
          Nat.min_eq_left hbytes, if_pos (by omega)]
    next => cases h
  · rintro ⟨hfits, hsize, hbytes⟩
    have hle : start + len ≤ m.bytes.data.size := hfits
    rw [if_pos hfits]
    congr 1
    apply ByteArray.ext
    rw [ByteArray.data_extract]
    apply Array.ext_getElem?
    intro k
    by_cases hk : k < len
    · rw [hbytes k hk, Array.getElem?_extract, Nat.min_eq_left hle, if_pos (by omega)]
    · have hp : p.data.size = len := hsize
      rw [Array.getElem?_eq_none (by rw [Array.size_extract]; omega),
        Array.getElem?_eq_none (by omega)]

theorem slice?_isSome_iff (m : Memory) (start len : Nat) :
    (m.slice? start len).isSome ↔ start + len ≤ m.size := by
  unfold slice?
  split
  next h => simp [h]
  next h => simp [h]

end ByteByteJump.Memory
