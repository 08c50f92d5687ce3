import ByteByteJump.Proofs.Machine.Action
import ByteByteJump.Proofs.Memory.Cell

/-! What an instruction and the start of a frame do to single cells.

A fetched instruction puts the byte of one cell into another and leaves the rest
(`cell?_perform`); the start of a frame puts the keys into the first two
(`cell?_start`). An instruction is known from its nine cells and from its operands
being there (`fetch_eq_ok_iff`), so that two machines compared on cells fetch
alike. Where a frame stops, well or by a fault, it is some instructions past its
start (`frame_eq_after`). -/
namespace ByteByteJump.Machine

variable {m n : Machine} {i : Instruction} {keys : Keypad}

theorem fetch_eq_ok_iff :
    m.fetch = .ok i ↔
      m.memory.instruction? m.pc = some i ∧ ∀ a ∈ i.operands, a.toNat < m.memory.size := by
  constructor
  · intro h
    refine ⟨?_, fun a => lt_size_of_fetch h⟩
    unfold fetch at h
    split at h
    next => cases h
    next j hj =>
      split at h
      · cases h
      · cases h
        exact hj
  · rintro ⟨hi, ha⟩
    exact fetch_eq_ok hi ha

theorem source_lt_of_fetch (h : m.fetch = .ok i) : i.source.toNat < m.memory.size :=
  lt_size_of_fetch h (by simp [Instruction.operands])

theorem target_lt_of_fetch (h : m.fetch = .ok i) : i.target.toNat < m.memory.size :=
  lt_size_of_fetch h (by simp [Instruction.operands])

/-- The nine bytes of a fetched instruction are there. -/
theorem room_of_fetch (h : m.fetch = .ok i) : m.pc.toNat + 9 ≤ m.memory.size := by
  have hcode := (fetch_eq_ok_iff.1 h).1
  unfold Memory.instruction? at hcode
  split at hcode
  next hroom => exact hroom
  next => cases hcode

/-- After an instruction its target holds what its source held. -/
theorem cell?_perform (h : m.fetch = .ok i) (k : Nat) :
    (m.perform i).memory.cell? k =
      m.memory.cell? (if k = i.target.toNat then i.source.toNat else k) :=
  Memory.cell?_copy (source_lt_of_fetch h) (target_lt_of_fetch h) k

/-! ### The start of a frame -/

theorem cell?_start (h : 2 ≤ m.memory.size) (k : Nat) :
    (m.start keys).memory.cell? k =
      if k = 1 then some keys.pack.toUInt8
      else if k = 0 then some (keys.pack >>> 8).toUInt8
      else m.memory.cell? k := by
  have h0 : (0 : Address).toNat < m.memory.size := Nat.lt_of_lt_of_le Nat.zero_lt_two h
  have h1 : (1 : Address).toNat < (m.memory.set 0 (keys.pack >>> 8).toUInt8).size := by
    rw [Memory.size_set]
    exact h
  show ((m.memory.set 0 _).set 1 _).cell? k = _
  rw [Memory.cell?_set _ _ h1, Memory.cell?_set _ _ h0]
  rfl

theorem cell?_start_of_two_le (h : 2 ≤ m.memory.size) {k : Nat} (hk : 2 ≤ k) :
    (m.start keys).memory.cell? k = m.memory.cell? k := by
  rw [cell?_start h, if_neg (by omega), if_neg (by omega)]

/-- The entry point is spelled by cells 2 to 4. -/
theorem pc_start_congr (hm : 2 ≤ m.memory.size) (hn : 2 ≤ n.memory.size)
    (h : ∀ k, 2 ≤ k → k < 5 → m.memory.cell? k = n.memory.cell? k) :
    (m.start keys).pc = (n.start keys).pc := by
  have hbyte (a : Address) (h2 : 2 ≤ a.toNat) (h5 : a.toNat < 5) :
      m.memory.byte a = n.memory.byte a := by
    rw [Memory.byte_eq_cell?, Memory.byte_eq_cell?, h _ h2 h5]
  rw [pc_start hm, pc_start hn, hbyte 2 (by decide) (by decide), hbyte 3 (by decide) (by decide),
    hbyte 4 (by decide) (by decide)]

/-! ### The program -/

/-- The same bytes from cell 2 on, in memories with room for the header. The first two
bytes, the program counters and the counts may differ. -/
structure SameProgram (m n : Machine) : Prop where
  five_le : 5 ≤ m.memory.size
  size : n.memory.size = m.memory.size
  cells : ∀ k, 2 ≤ k → n.memory.cell? k = m.memory.cell? k

/-- What the start of a frame does not put in place is the program. -/
theorem start_of_sameProgram (h : SameProgram m n) (keys : Keypad) : n.start keys = m.start keys := by
  have hm : 2 ≤ m.memory.size := Nat.le_trans (by decide) h.five_le
  have hn : 2 ≤ n.memory.size := by rwa [h.size]
  have hmemory : (n.start keys).memory = (m.start keys).memory := by
    refine Memory.ext_cell fun k => ?_
    rw [cell?_start hn, cell?_start hm]
    by_cases hk : 2 ≤ k
    · rw [h.cells k hk]
    · obtain rfl | rfl : k = 0 ∨ k = 1 := by omega
      · rfl
      · rfl
  -- The entry point is read from that memory.
  simp only [start] at hmemory ⊢
  rw [hmemory]

theorem frame_of_sameProgram (h : SameProgram m n) (keys : Keypad) : n.frame keys = m.frame keys := by
  have h5 : 5 ≤ n.memory.size := by
    rw [h.size]
    exact h.five_le
  rw [frame_eq_runFrame h5, frame_eq_runFrame h.five_le, start_of_sameProgram h]

/-! ### The end of a frame -/

/-- A frame leaves the machine some instructions past its start, and counts them. -/
theorem frame_eq_after (h : 5 ≤ m.memory.size) (keys : Keypad) :
    ∃ k last, k ≤ frameLength ∧ after k (m.start keys) = .ok last ∧
      (m.frame keys).1 = { last with executed := k } := by
  rcases frame_cases h keys with ⟨last, hlast, hframe⟩ | ⟨k, prior, f, hk, hprior, _, hframe⟩
  · exact ⟨frameLength, last, Nat.le_refl _, hlast, by rw [hframe]⟩
  · exact ⟨k, prior, Nat.le_of_lt hk, hprior, by rw [hframe]⟩

/-! ### The record of a run -/

theorem records_succ (k : Nat) (h : m.fetch = .ok i) :
    (trace (k + 1) m).1 =
      ⟨m.pc, i, ((m.perform i).memory.get? i.target).getD 0⟩ :: (trace k (m.perform i)).1 := by
  rw [trace]
  simp only [h, execute?_of_fetch h]

theorem length_records {k : Nat} (h : after k m = .ok n) : (trace k m).1.length = k := by
  induction k generalizing m with
  | zero => rfl
  | succ k ih =>
    obtain ⟨next, hnext, hn⟩ := after_succ_eq_ok_iff.1 h
    obtain ⟨i, hi, rfl⟩ := step_eq_ok_iff.1 hnext
    rw [records_succ k hi, List.length_cons, ih hn]

end ByteByteJump.Machine
