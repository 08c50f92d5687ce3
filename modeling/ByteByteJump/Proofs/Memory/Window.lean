import ByteByteJump.Proofs.Instruction.Codec
import ByteByteJump.Proofs.Memory.Cell

/-! The nine bytes that an instruction is read from.

A window is nine cells in a row. Where a memory has one, its instruction there is what
the window decodes to (`instruction?_of_window`), and the operands are the numbers that the
cells spell three by three (`map_operands_of_window`). A byte copied into a window
replaces one of its bytes, a byte copied elsewhere none (`Window.copy`). -/
namespace ByteByteJump.Memory

/-- The nine bytes of the cells from `k` on. -/
def Window (m : Memory) (k : Nat) (b : Vector UInt8 9) : Prop :=
  ∀ j (h : j < 9), m.cell? (k + j) = some b[j]

/-- The number that three cells spell, most significant first. -/
def number (m : Memory) (k : Nat) : Nat :=
  ((m.cell? k).getD 0).toNat * 65536 + ((m.cell? (k + 1)).getD 0).toNat * 256 +
    ((m.cell? (k + 2)).getD 0).toNat

/-- The numbers that nine cells spell. -/
def numbersAt (m : Memory) (k : Nat) : List Nat := [m.number k, m.number (k + 3), m.number (k + 6)]

variable {m : Memory} {k : Nat} {a source target : Address} {b : Vector UInt8 9} {v : UInt8}

theorem exists_window_iff : (∃ b, m.Window k b) ↔ k + 9 ≤ m.size := by
  constructor
  · rintro ⟨b, h⟩
    exact lt_size_of_cell? (h 8 (by decide))
  · intro h
    refine ⟨Vector.ofFn fun j => (m.cell? (k + j)).getD 0, fun j hj => ?_⟩
    have hcell : k + j < m.size := by omega
    obtain ⟨v, hv⟩ := Option.isSome_iff_exists.1 (isSome_cell?.2 hcell)
    simp [hv]

theorem instruction?_of_window (h : m.Window a.toNat b) :
    m.instruction? a = some (.decode b) := by
  have hroom : a.toNat + 9 ≤ m.bytes.size := exists_window_iff.1 ⟨b, h⟩
  have hbyte (j : Nat) (hj : j < 9) : m.bytes[a.toNat + j] = b[j] := by
    have := h j hj
    rw [cell?_eq_getElem (by omega)] at this
    exact Option.some.inj this
  have hfirst : m.bytes[a.toNat] = b[0] := hbyte 0 (by decide)
  unfold instruction? Instruction.width
  rw [dif_pos hroom]
  dsimp only
  rw [hfirst, hbyte 1 (by decide), hbyte 2 (by decide), hbyte 3 (by decide), hbyte 4 (by decide),
    hbyte 5 (by decide), hbyte 6 (by decide), hbyte 7 (by decide), hbyte 8 (by decide),
    Instruction.decode_eq]

theorem instruction?_eq_none (h : m.size < a.toNat + 9) : m.instruction? a = none :=
  dif_neg (Nat.not_le_of_lt h)

theorem number_of_window (h : m.Window k b) (j : Nat) (hj : j + 2 < 9) :
    m.number (k + j) = b[j].toNat * 65536 + b[j + 1].toNat * 256 + b[j + 2].toNat := by
  rw [number, Nat.add_assoc k j 1, Nat.add_assoc k j 2, h j (by omega), h (j + 1) (by omega),
    h (j + 2) hj]
  rfl

theorem operands_of_window (h : m.Window k b) :
    (Instruction.decode b).source.toNat = m.number k ∧
      (Instruction.decode b).target.toNat = m.number (k + 3) ∧
      (Instruction.decode b).next.toNat = m.number (k + 6) := by
  rw [Instruction.decode_eq, number_of_window h 3 (by decide), number_of_window h 6 (by decide)]
  exact ⟨(Address.toNat_ofBytes ..).trans (number_of_window h 0 (by decide)).symm,
    Address.toNat_ofBytes .., Address.toNat_ofBytes ..⟩

theorem map_operands_of_window (h : m.Window k b) :
    (Instruction.decode b).operands.map UInt32.toNat = m.numbersAt k := by
  obtain ⟨hsource, htarget, hnext⟩ := operands_of_window h
  simp only [Instruction.operands, List.map_cons, List.map_nil, hsource, htarget, hnext, numbersAt]

/-! ### A byte copied into a window -/

/-- Nine bytes from cell `k` on, with `v` in the place of the one in cell `c`. -/
def replaced (b : Vector UInt8 9) (k c : Nat) (v : UInt8) : Vector UInt8 9 :=
  Vector.ofFn fun j => if k + j = c then v else b[j]

theorem replaced_of_outside {c : Nat} (h : c < k ∨ k + 9 ≤ c) : replaced b k c v = b := by
  ext j hj
  rw [replaced, Vector.getElem_ofFn, if_neg (by dsimp only; omega)]
  rfl

theorem Window.copy (h : m.Window k b) (hs : m.cell? source.toNat = some v)
    (ht : target.toNat < m.size) :
    (m.copy source target).Window k (replaced b k target.toNat v) := by
  intro j hj
  rw [cell?_copy (lt_size_of_cell? hs) ht, replaced, Vector.getElem_ofFn]
  dsimp only
  split
  · exact hs
  · exact h j hj

end ByteByteJump.Memory
