import ByteByteJump.Proofs.Machine.Action

/-! A frame refines the iterated instruction.

The frame loop latches keys, reloads the program counter, counts, and leaves
early at a fault; the reference does none of this and only applies `step` again
and again from `start`. `FrameByIteration` lists how the two agree on everything a
frame leaves behind, at every number of instructions: result, memory, program
counter and count. `frame_refines_iteration` says that they do so with any keys in
every memory of five bytes or more. -/
namespace ByteByteJump.Machine

/-- After the first, each program counter of a frame is the jump of the
instruction before it; nothing reads the entry point again. -/
theorem pc_of_after_succ {k : Nat} {m last : Machine} (h : after (k + 1) m = .ok last) :
    ∃ prior i, after k m = .ok prior ∧ prior.fetch = .ok i ∧ last.pc = i.next := by
  obtain ⟨prior, hprior, hstep⟩ := after_succ_eq_ok_iff_last.1 h
  obtain ⟨i, hi, rfl⟩ := step_eq_ok_iff.1 hstep
  exact ⟨prior, i, hprior, hi, rfl⟩

/-- What the frames of a machine with room for its header have to do with its instructions.
`completed` and `faulted` are the two ways of a frame, and `ways` says that there is no third. -/
structure FrameByIteration (keys : Keypad) (m : Machine) : Prop where
  length : frameLength = 65536
  size : (m.start keys).memory.size = m.memory.size
  /-- The packed keys in bytes 0 and 1, and the other bytes as they were. -/
  latched : ∀ a, (m.start keys).memory.byte a =
    if a = 0 then (keys.pack >>> 8).toUInt8
    else if a = 1 then keys.pack.toUInt8
    else m.memory.byte a
  entry : (m.start keys).pc.toNat =
    (m.memory.byte 2).toNat * 65536 + (m.memory.byte 3).toNat * 256 + (m.memory.byte 4).toNat
  /-- Whether another instruction could follow is not asked. -/
  completed : ∀ last, after frameLength (m.start keys) = .ok last →
    m.frame keys = ({ last with executed := frameLength }, .ok ())
  faulted : ∀ k prior f, k < frameLength → after k (m.start keys) = .ok prior →
    prior.step = .error f → m.frame keys = ({ prior with executed := k }, .error (.failed f))
  ways : (∃ last, after frameLength (m.start keys) = .ok last) ∨
    ∃ k prior f, k < frameLength ∧ after k (m.start keys) = .ok prior ∧ prior.step = .error f
  /-- The entry point counts once: later program counters are jumps. -/
  jumps : ∀ k last, after (k + 1) (m.start keys) = .ok last →
    ∃ prior i, after k (m.start keys) = .ok prior ∧ prior.fetch = .ok i ∧ last.pc = i.next
  /-- Nothing but a frame changes the count. -/
  count : ∀ (x : Machine) (a : Action), (∀ ks, a ≠ .frame ks) → (x.act a).1.executed = x.executed

/-- **A frame is the iterated instruction, cut off after 65536.** The iterate
starts from the memory with the packed keys in bytes 0 and 1 and from the entry
point that bytes 2 to 4 spell, whatever the program counter and the count were.
If all 65536 instructions succeed, the frame succeeds with the machine they leave;
if instruction `k` is the first that fails, the frame fails as it does, with the
machine as `k` instructions left it and with count `k`. -/
theorem frame_refines_iteration (keys : Keypad) (m : Machine) (h : 5 ≤ m.memory.size) :
    m.FrameByIteration keys where
  length := rfl
  size := size_start
  latched a := byte_start a (Nat.le_trans (by decide) h)
  entry := by
    rw [pc_start (Nat.le_trans (by decide) h)]
    exact Address.toNat_ofBytes _ _ _
  completed _ := frame_of_after h
  faulted _ _ _ := frame_of_fault h
  ways := after_or_fault frameLength (m.start keys)
  jumps _ _ := pc_of_after_succ
  count := executed_act

/-- A program that writes over its own entry point and then jumps to where no
instruction fits: one instruction succeeds, the next is the fault. -/
def overwriting : Machine :=
  ⟨⟨⟨#[0, 0, 0, 0, 8, 0, 0, 0, 0, 0, 20, 0, 0, 2, 0, 0, 24, 0, 0, 0, 7, 0, 0, 0, 0, 0, 0, 0]⟩⟩,
    4660, 99⟩

theorem overwriting_frame :
    5 ≤ overwriting.memory.size ∧
      (overwriting.frame (Keypad.released.press 0)).2 = .error (.failed (.instructionPointer 24)) ∧
      (overwriting.frame (Keypad.released.press 0)).1.executed = 1 ∧
      (overwriting.frame (Keypad.released.press 0)).1.pc = 24 ∧
      (overwriting.frame (Keypad.released.press 0)).1.memory.byte 0 = 128 ∧
      (overwriting.frame (Keypad.released.press 0)).1.memory.byte 2 = 7 := by
  have h : 5 ≤ overwriting.memory.size := by decide
  have hframe := (frame_refines_iteration (Keypad.released.press 0) overwriting h).faulted 1 _ _
    (by decide) rfl rfl
  rw [hframe]
  exact ⟨h, rfl, rfl, rfl, rfl, rfl⟩

end ByteByteJump.Machine
