import ByteByteJump.Machine.Frame
import ByteByteJump.Proofs.Machine.Iteration
import ByteByteJump.Proofs.Memory.Region

/-! What a frame does to a machine with room for its header.

The keys go into bytes 0 and 1, bytes 2 to 4 spell the entry point, and from
there on (`start`) a frame is the iterated instruction, cut off after
`frameLength` of them: `frame_of_after` is the frame that goes well,
`frame_of_fault` the one that does not, and `frame_cases` says that a frame is
one of the two. Only a memory of fewer than five bytes has neither. -/
namespace ByteByteJump.Machine

/-- Where the instructions of a frame start: the keys in bytes 0 and 1, and the
program counter that bytes 2 to 4 spell then. -/
def start (keys : Keypad) (m : Machine) : Machine :=
  let memory := (m.memory.set 0 (keys.pack >>> 8).toUInt8).set 1 keys.pack.toUInt8
  ⟨memory, .ofBytes (memory.byte 2) (memory.byte 3) (memory.byte 4), 0⟩

section Start
variable {keys : Keypad} {m : Machine}

@[simp] theorem size_start : (m.start keys).memory.size = m.memory.size := by
  simp [start]

theorem latch_eq (h : 2 ≤ m.memory.size) :
    m.latch keys = (⟨(m.start keys).memory, m.pc, m.executed⟩, .ok ()) := by
  have h0 : (0 : Address).toNat < m.memory.size := Nat.lt_of_lt_of_le Nat.zero_lt_two h
  have h1 : (0 + 1 : Address).toNat < m.memory.size := h
  simp only [latch, write, Keypad.bytes, Header.keys, Memory.write_pair _ _ _ _ h0 h1]
  rfl

theorem byte_start (a : Address) (h : 2 ≤ m.memory.size) :
    (m.start keys).memory.byte a =
      if a = 0 then (keys.pack >>> 8).toUInt8
      else if a = 1 then keys.pack.toUInt8
      else m.memory.byte a := by
  have h0 : (0 : Address).toNat < m.memory.size := Nat.lt_of_lt_of_le Nat.zero_lt_two h
  have h1 : (1 : Address).toNat < (m.memory.set 0 (keys.pack >>> 8).toUInt8).size := by
    rw [Memory.size_set]
    exact h
  simp only [start]
  rw [Memory.byte_set _ _ _ _ h1, Memory.byte_set _ _ _ _ h0]
  by_cases ha : a = 0
  · subst ha
    rfl
  · rw [if_neg ha, if_neg ha]

/-- Latching keys does not touch the entry point. -/
theorem pc_start (h : 2 ≤ m.memory.size) :
    (m.start keys).pc =
      .ofBytes (m.memory.byte 2) (m.memory.byte 3) (m.memory.byte 4) := by
  have hb (a : Address) (h1 : a ≠ 1) (h0 : a ≠ 0) :
      (m.start keys).memory.byte a = m.memory.byte a := by
    rw [byte_start a h, if_neg h0, if_neg h1]
  show Address.ofBytes ((m.start keys).memory.byte 2) ((m.start keys).memory.byte 3)
    ((m.start keys).memory.byte 4) = _
  rw [hb 2 (by decide) (by decide), hb 3 (by decide) (by decide), hb 4 (by decide) (by decide)]

/-- With room for the header, a frame is its instructions. -/
theorem frame_eq_runFrame (h : 5 ≤ m.memory.size) : m.frame keys = runFrame (m.start keys) := by
  have hentry : (m.start keys).memory.address? Header.entry = some (m.start keys).pc :=
    Memory.address?_eq _ _ (by rw [size_start]; exact h) (by decide)
  unfold frame
  rw [latch_eq (Nat.le_trans (by decide) h)]
  simp only [hentry]
  rfl

end Start

/-! ### The two ways of a frame -/

section Ways
variable {keys : Keypad} {m : Machine} (h : 5 ≤ m.memory.size)

include h

theorem frame_of_after {last : Machine} (hlast : after frameLength (m.start keys) = .ok last) :
    m.frame keys = ({ last with executed := frameLength }, .ok ()) := by
  rw [frame_eq_runFrame h, runFrame, steps_of_after hlast]

theorem frame_of_fault {k : Nat} {prior : Machine} {f : Fault} (hk : k < frameLength)
    (hprior : after k (m.start keys) = .ok prior) (hf : prior.step = .error f) :
    m.frame keys = ({ prior with executed := k }, .error (.failed f)) := by
  rw [frame_eq_runFrame h, runFrame, steps_of_fault hk hprior hf]

theorem frame_cases (keys : Keypad) :
    (∃ last, after frameLength (m.start keys) = .ok last ∧
      m.frame keys = ({ last with executed := frameLength }, .ok ())) ∨
    ∃ k prior f, k < frameLength ∧ after k (m.start keys) = .ok prior ∧ prior.step = .error f ∧
      m.frame keys = ({ prior with executed := k }, .error (.failed f)) := by
  rcases after_or_fault frameLength (m.start keys) with
    ⟨last, hlast⟩ | ⟨k, prior, f, hk, hprior, hf⟩
  · exact .inl ⟨last, hlast, frame_of_after h hlast⟩
  · exact .inr ⟨k, prior, f, hk, hprior, hf, frame_of_fault h hk hprior hf⟩

theorem frame_ne_outOfRange (keys : Keypad) : (m.frame keys).2 ≠ .error .outOfRange := by
  rcases frame_cases h keys with ⟨last, _, hframe⟩ | ⟨k, prior, f, _, _, _, hframe⟩
  · simp [hframe]
  · simp [hframe]

end Ways

theorem size_steps (n : Nat) (m : Machine) :
    (steps n m).machine.memory.size = m.memory.size := by
  rcases after_or_fault n m with ⟨last, hlast⟩ | ⟨k, prior, f, hk, hprior, hf⟩
  · rw [steps_of_after hlast]
    exact size_of_after hlast
  · rw [steps_of_fault hk hprior hf]
    exact size_of_after hprior

theorem size_latch (keys : Keypad) (m : Machine) :
    (m.latch keys).1.memory.size = m.memory.size :=
  Memory.size_write ..

/-- No frame, however it comes out, changes the number of bytes. -/
theorem size_frame (keys : Keypad) (m : Machine) :
    (m.frame keys).1.memory.size = m.memory.size := by
  have hlatch := size_latch keys m
  unfold frame
  split
  next latched _ heq =>
    rw [heq] at hlatch
    exact hlatch
  next latched heq =>
    rw [heq] at hlatch
    split
    · exact hlatch
    · exact (size_steps frameLength _).trans hlatch

end ByteByteJump.Machine
