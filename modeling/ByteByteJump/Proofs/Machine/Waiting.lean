import ByteByteJump.Proofs.Machine.Action

/-! Waiting for the end of a frame.

The machine has no instruction that stops it. A program that is done with its
frame copies a byte onto itself and jumps to where it is, until the frame is
over: every such instruction leaves the machine as it was (`step_of_waiting`), so
a frame of nothing else ends where it started (`frame_of_waiting`). A memory of
zeros is such a program. -/
namespace ByteByteJump.Machine

variable {m : Machine} {keys : Keypad}

theorem step_of_waiting {a : Address} (h : m.fetch = .ok ⟨a, a, m.pc⟩) : m.step = .ok m := by
  refine step_eq_ok_iff.2 ⟨_, h, ?_⟩
  show m = ⟨m.memory.copy a a, m.pc, m.executed⟩
  rw [Memory.copy_self]

theorem after_of_still (h : m.step = .ok m) (n : Nat) : after n m = .ok m := by
  induction n with
  | zero => rfl
  | succ n ih => rw [after_succ_of_ok n h, ih]

theorem frame_of_waiting (h : 5 ≤ m.memory.size) {a : Address}
    (hwait : (m.start keys).fetch = .ok ⟨a, a, (m.start keys).pc⟩) :
    m.frame keys = ({ m.start keys with executed := frameLength }, .ok ()) :=
  frame_of_after h (after_of_still (step_of_waiting hwait) frameLength)

/-! ### A memory of zeros -/

theorem size_start_blank : (blank.start keys).memory.size = Address.reach :=
  size_start.trans (Memory.size_blank _)

theorem two_le_size_blank : 2 ≤ blank.memory.size := by
  have hsize : blank.memory.size = Address.reach := Memory.size_blank _
  rw [hsize]
  decide

theorem byte_start_blank (a : Address) : (blank.start .released).memory.byte a = 0 := by
  have hblank : blank.memory.byte a = 0 := Memory.byte_blank _ a
  have hkeys : Keypad.released.pack = 0 := by decide
  rw [byte_start a two_le_size_blank, hblank, hkeys]
  split
  · rfl
  · split <;> rfl

theorem pc_start_blank : (blank.start keys).pc = 0 := by
  have hblank (a : Address) : blank.memory.byte a = 0 := Memory.byte_blank _ a
  rw [pc_start two_le_size_blank, hblank, hblank, hblank]
  rfl

/-- Nine zeros at address 0 wait. -/
theorem fetch_start_blank :
    (blank.start .released).fetch = .ok ⟨0, 0, (blank.start .released).pc⟩ := by
  have hroom : (0 : Address).toNat + 9 ≤ (blank.start .released).memory.size := by
    rw [size_start_blank]
    decide
  have hfetched : (blank.start .released).memory.instruction? 0 = some ⟨0, 0, 0⟩ := by
    rw [Memory.instruction?_eq _ 0 hroom (by decide)]
    simp only [byte_start_blank]
    rfl
  refine fetch_eq_ok ?_ fun a ha => ?_
  · rw [pc_start_blank, hfetched]
  · rw [pc_start_blank] at ha
    simp only [Instruction.operands, List.mem_cons, List.not_mem_nil, or_false, or_self] at ha
    rw [ha, size_start_blank]
    decide

end ByteByteJump.Machine
