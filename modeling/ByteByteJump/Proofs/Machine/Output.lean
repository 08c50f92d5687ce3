import ByteByteJump.Machine
import ByteByteJump.Proofs.Memory.Region

/-! The picture and the sound of a machine, as regions of its memory.

Byte 5 of the header places the picture in units of 65536 bytes, bytes 6 and 7
place the sound in units of 256. `IsPicture` and `IsSound` say of some bytes that
they are the ones in that place; the machine hands out exactly those, and
nothing if the memory ends before them. -/
namespace ByteByteJump.Machine

/-- Where the header places the picture. -/
def pictureStart (m : Machine) : Nat := (m.memory.byte 5).toNat * pictureSize

/-- Where the header places the sound. -/
def soundStart (m : Machine) : Nat :=
  ((m.memory.byte 6).toNat * 256 + (m.memory.byte 7).toNat) * soundSize

/-- The 65536 bytes in the picture's place. -/
def IsPicture (m : Machine) (p : ByteArray) : Prop := m.memory.Region m.pictureStart pictureSize p

/-- The 256 bytes in the sound's place. -/
def IsSound (m : Machine) (p : ByteArray) : Prop := m.memory.Region m.soundStart soundSize p

theorem pictureBase?_eq {m : Machine} (h : 6 ≤ m.memory.size) :
    m.pictureBase? = some m.pictureStart := by
  have h5 : (5 : Address).toNat < m.memory.size := h
  rw [pictureBase?, Header.picture, Memory.get?_eq_some_byte _ _ h5]
  rfl

theorem pictureBase?_eq_none {m : Machine} (h : m.memory.size ≤ 5) : m.pictureBase? = none := by
  rw [pictureBase?, Header.picture, (Memory.get?_eq_none_iff m.memory 5).2 h]
  rfl

theorem soundBase?_eq {m : Machine} (h : 8 ≤ m.memory.size) :
    m.soundBase? = some m.soundStart := by
  have hword : m.memory.word? Header.sound =
      some ((m.memory.byte 6).toUInt16 * 256 + (m.memory.byte 7).toUInt16) :=
    Memory.word?_eq m.memory 6 h (by decide)
  have hhigh := (m.memory.byte 6).toNat_lt
  have hlow := (m.memory.byte 7).toNat_lt
  have hvalue : ((m.memory.byte 6).toUInt16 * 256 + (m.memory.byte 7).toUInt16).toNat =
      (m.memory.byte 6).toNat * 256 + (m.memory.byte 7).toNat := by
    simp only [UInt16.toNat_add, UInt16.toNat_mul, UInt8.toNat_toUInt16, UInt16.reduceToNat]
    omega
  rw [soundBase?, hword, Option.map_some, hvalue]
  rfl

theorem soundBase?_eq_none {m : Machine} (h : m.memory.size ≤ 7) : m.soundBase? = none := by
  have hword : ¬ (6 : Address).toNat + 2 ≤ m.memory.bytes.size :=
    Nat.not_le_of_lt (Nat.lt_succ_of_le h)
  rw [soundBase?, Header.sound, Memory.word?, dif_neg hword]
  rfl

theorem picture?_eq_some_iff (m : Machine) (p : ByteArray) :
    m.picture? = some p ↔ m.IsPicture p := by
  unfold picture? IsPicture
  by_cases h : 6 ≤ m.memory.size
  · rw [pictureBase?_eq h, Option.bind_eq_bind, Option.bind_some]
    exact Memory.slice?_eq_some_iff ..
  · rw [pictureBase?_eq_none (by omega)]
    constructor
    · intro hp
      cases hp
    · intro hp
      have := hp.fits
      rw [pictureSize] at this
      omega

theorem sound?_eq_some_iff (m : Machine) (p : ByteArray) : m.sound? = some p ↔ m.IsSound p := by
  unfold sound? IsSound
  by_cases h : 8 ≤ m.memory.size
  · rw [soundBase?_eq h, Option.bind_eq_bind, Option.bind_some]
    exact Memory.slice?_eq_some_iff ..
  · rw [soundBase?_eq_none (by omega)]
    constructor
    · intro hp
      cases hp
    · intro hp
      have := hp.fits
      rw [soundSize] at this
      omega

/-- A region that fits can be handed out. -/
theorem exists_picture {m : Machine} (h : m.pictureStart + pictureSize ≤ m.memory.size) :
    ∃ p, m.picture? = some p := by
  obtain ⟨p, hp⟩ := Option.isSome_iff_exists.1
    ((Memory.slice?_isSome_iff m.memory m.pictureStart pictureSize).2 h)
  exact ⟨p, (picture?_eq_some_iff m p).2 ((Memory.slice?_eq_some_iff ..).1 hp)⟩

theorem exists_sound {m : Machine} (h : m.soundStart + soundSize ≤ m.memory.size) :
    ∃ p, m.sound? = some p := by
  obtain ⟨p, hp⟩ := Option.isSome_iff_exists.1
    ((Memory.slice?_isSome_iff m.memory m.soundStart soundSize).2 h)
  exact ⟨p, (sound?_eq_some_iff m p).2 ((Memory.slice?_eq_some_iff ..).1 hp)⟩

end ByteByteJump.Machine
