import ByteByteJump.Proofs.Memory.Region

/-! Memory cell by cell.

A cell is a place in a memory, counted from its beginning, whether an address can
spell it or not; `cell?` is its byte. Sizes, writes, copies and instructions are
read off the cells: two memories with the same cells are the same memory
(`ext_cell`), and an instruction is nine cells (`instruction?_congr`). -/
namespace ByteByteJump.Memory

/-- The byte of a cell, if there is such a cell. -/
def cell? (m : Memory) (k : Nat) : Option UInt8 := m.bytes.data[k]?

variable {m n : Memory} {k : Nat}

theorem get?_eq_cell? (m : Memory) (a : Address) : m.get? a = m.cell? a.toNat := get?_eq m a

theorem byte_eq_cell? (m : Memory) (a : Address) : m.byte a = (m.cell? a.toNat).getD 0 := by
  rw [byte, get?_eq_cell?]

theorem cell?_eq_getElem (h : k < m.bytes.size) : m.cell? k = some m.bytes[k] :=
  Array.getElem?_eq_getElem h

theorem isSome_cell? : (m.cell? k).isSome ↔ k < m.size := by
  simp [cell?, size]

theorem lt_size_of_cell? {v : UInt8} (h : m.cell? k = some v) : k < m.size :=
  isSome_cell?.1 (by rw [h]; rfl)

/-- A memory is its cells. -/
theorem ext_cell (h : ∀ k, m.cell? k = n.cell? k) : m = n :=
  congrArg Memory.mk (ByteArray.ext (Array.ext_getElem? h))

theorem cell?_set (a : Address) (v : UInt8) (ha : a.toNat < m.size) (k : Nat) :
    (m.set a v).cell? k = if k = a.toNat then some v else m.cell? k := by
  have ha : a.toNat < m.bytes.data.size := ha
  unfold cell?
  rw [data_set]
  by_cases hk : k = a.toNat
  · rw [if_pos hk, hk, Array.getElem?_setIfInBounds_self_of_lt ha]
  · rw [if_neg hk, Array.getElem?_setIfInBounds_ne (Ne.symm hk)]

theorem cell?_copy {source target : Address} (hs : source.toNat < m.size)
    (ht : target.toNat < m.size) (k : Nat) :
    (m.copy source target).cell? k = m.cell? (if k = target.toNat then source.toNat else k) := by
  have hsource : m.get? source = m.cell? source.toNat := get?_eq_cell? m source
  cases hv : m.cell? source.toNat with
  | none =>
    have := isSome_cell?.2 hs
    simp [hv] at this
  | some v =>
    rw [hv] at hsource
    have hcopy : m.copy source target = m.set target v := by
      unfold copy
      rw [hsource]
    rw [hcopy, cell?_set target v ht]
    split
    · exact hv.symm
    · rfl

/-- An instruction is its nine cells. -/
theorem instruction?_congr {a : Address}
    (h : ∀ j < 9, m.cell? (a.toNat + j) = n.cell? (a.toNat + j)) :
    m.instruction? a = n.instruction? a := by
  have hfits : a.toNat + 9 ≤ m.bytes.size ↔ a.toNat + 9 ≤ n.bytes.size := by
    have hm := isSome_cell? (m := m) (k := a.toNat + 8)
    have hn := isSome_cell? (m := n) (k := a.toNat + 8)
    rw [h 8 (by decide)] at hm
    exact hm.symm.trans hn
  unfold instruction? Instruction.width
  by_cases hm : a.toNat + 9 ≤ m.bytes.size
  · have hn := hfits.1 hm
    have hbyte (j : Nat) (hj : j < 9) : m.bytes[a.toNat + j] = n.bytes[a.toNat + j] := by
      have := h j hj
      rw [cell?_eq_getElem (by omega), cell?_eq_getElem (by omega)] at this
      exact Option.some.inj this
    have hfirst : m.bytes[a.toNat] = n.bytes[a.toNat] := hbyte 0 (by decide)
    rw [dif_pos hm, dif_pos hn]
    dsimp only
    rw [hfirst, hbyte 1 (by decide), hbyte 2 (by decide), hbyte 3 (by decide), hbyte 4 (by decide),
      hbyte 5 (by decide), hbyte 6 (by decide), hbyte 7 (by decide), hbyte 8 (by decide)]
  · rw [dif_neg hm, dif_neg (mt hfits.2 hm)]

/-- The bytes of a region are bytes of the memory. -/
theorem Region.exists_cell? {start len : Nat} {p : ByteArray} (h : m.Region start len p)
    {v : UInt8} (hv : v ∈ p.data) : ∃ c, m.cell? c = some v := by
  obtain ⟨k, hk⟩ := Array.mem_iff_getElem?.1 hv
  have hsize : p.data.size = len := h.size
  have hlt : k < p.data.size := (Array.getElem?_eq_some_iff.1 hk).1
  exact ⟨start + k, (h.bytes k (hsize ▸ hlt)).symm.trans hk⟩

end ByteByteJump.Memory
