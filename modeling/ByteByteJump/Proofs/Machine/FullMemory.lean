import ByteByteJump.Proofs.Machine.Action
import ByteByteJump.Proofs.Machine.Output

/-! Machines with a full memory.

A full memory has a byte for every address that three bytes can spell, so no
operand of an instruction in it names a missing one, and neither does the last
picture or sound that a header can ask for. What is left to fail is an
instruction that starts too late to have nine bytes (`AtEnd`): the program
counter can be set that far from outside, and programs can jump there. -/
namespace ByteByteJump

/-- The fault of an instruction that starts within the last eight addresses, or
beyond them. -/
def Fault.AtEnd (f : Fault) : Prop :=
  ∃ pc : Address, f = .instructionPointer pc ∧ Address.reach - 9 < pc.toNat

namespace Machine

/-- A byte for every address of three bytes. -/
def Full (m : Machine) : Prop := m.memory.size = Address.reach

variable {m : Machine}

theorem Full.le (h : m.Full) {n : Nat} (hn : n ≤ Address.reach) : n ≤ m.memory.size := by
  rwa [h]

theorem Full.five_le (h : m.Full) : 5 ≤ m.memory.size := h.le (by decide)

/-- Operands in memory are three bytes each. -/
theorem lt_of_instruction? {a : Address} {i : Instruction} (h : m.memory.instruction? a = some i)
    {x : Address} (hx : x ∈ i.operands) : x.toNat < Address.reach := by
  unfold Memory.instruction? at h
  split at h
  · cases h
    simp only [Instruction.operands, List.mem_cons, List.not_mem_nil, or_false] at hx
    rcases hx with rfl | rfl | rfl <;> exact Address.ofBytes_lt _ _ _
  · cases h

/-- In a full memory the program counter alone decides whether there is an
instruction. -/
theorem atEnd_of_fetch (hfull : m.Full) {f : Fault} (h : m.fetch = .error f) : f.AtEnd := by
  cases hi : m.memory.instruction? m.pc with
  | none =>
    have hf : m.fetch = .error (.instructionPointer m.pc) := by
      unfold fetch
      simp only [hi]
    cases h.symm.trans hf
    refine ⟨m.pc, rfl, ?_⟩
    unfold Memory.instruction? at hi
    split at hi
    next => cases hi
    next hroom =>
      have hsize : m.memory.bytes.size = Address.reach := hfull
      rw [hsize, Instruction.width] at hroom
      rw [Address.reach] at hroom ⊢
      omega
  | some i =>
    have hf : m.fetch = .ok i := by
      refine fetch_eq_ok hi fun a ha => ?_
      rw [hfull]
      exact lt_of_instruction? hi ha
    cases h.symm.trans hf

theorem atEnd_of_step (hfull : m.Full) {f : Fault} (h : m.step = .error f) : f.AtEnd :=
  atEnd_of_fetch hfull (step_eq_error_iff.1 h)

theorem full_start (keys : Keypad) (hfull : m.Full) : (m.start keys).Full :=
  size_start.trans hfull

theorem full_of_after {n : Nat} {last : Machine} (hfull : m.Full) (h : after n m = .ok last) :
    last.Full :=
  (size_of_after h).trans hfull

theorem atEnd_of_frame (keys : Keypad) (hfull : m.Full) {f : Fault}
    (h : (m.frame keys).2 = .error (.failed f)) : f.AtEnd := by
  rcases frame_cases hfull.five_le keys with
    ⟨last, _, hframe⟩ | ⟨k, prior, g, _, hprior, hg, hframe⟩
  · rw [hframe] at h
    cases h
  · rw [hframe] at h
    cases h
    exact atEnd_of_step (full_of_after (full_start keys hfull) hprior) hg

theorem full_frame (keys : Keypad) (hfull : m.Full) : (m.frame keys).1.Full :=
  (size_frame keys m).trans hfull

/-! ### Actions -/

theorem full_act (a : Action) (hfull : m.Full) : (m.act a).1.Full :=
  (size_act m a).trans hfull

theorem loaded_ne_outOfRange (m : Machine) (r : Except Failure Machine) :
    (m.loaded r).2 ≠ .error .outOfRange := by
  cases r <;> simp [loaded]

theorem act_ne_outOfRange {a : Action} (hfull : m.Full) (ha : a.Fits Address.reach) :
    (m.act a).2 ≠ .error .outOfRange := by
  cases a with
  | frame keys =>
    have := frame_ne_outOfRange hfull.five_le keys
    simp only [act]
    split <;> simp_all
  | step =>
    rw [act_step]
    cases m.step <;> simp
  | fetch =>
    simp only [act]
    split <;> simp
  | execute i =>
    have hi : i.source.toNat < m.memory.size ∧ i.target.toNat < m.memory.size := by
      rw [hfull]
      exact ha
    simp [act, tryExecute, execute?, hi]
  | jump a => simp [act]
  | load image => exact loaded_ne_outOfRange _ _
  | loadMemory image => exact loaded_ne_outOfRange _ _
  | loadFile file => exact loaded_ne_outOfRange _ _
  | reset => simp [act]
  | write a bytes =>
    have hwrite : (m.memory.write a bytes).2 = true := by
      apply Memory.write_of_fits
      · rw [hfull]
        decide
      · rw [hfull]
        exact ha
    simp [act, write, hwrite]

theorem not_fault_of_loaded {r : Except Failure Machine} {f : Fault}
    (hr : r ≠ .error (.fault f)) : (m.loaded r).2 ≠ .error (.failed (.fault f)) := by
  cases r with
  | ok n => simp [loaded]
  | error e => simpa [loaded] using hr

theorem loadMemory_ne_fault (m : Machine) (image : ByteArray) (f : Fault) :
    m.loadMemory image ≠ .error (.fault f) := by
  unfold loadMemory
  split <;> simp

theorem atEnd_of_act {a : Action} (hfull : m.Full) {f : Fault}
    (h : (m.act a).2 = .error (.failed (.fault f))) : f.AtEnd := by
  cases a with
  | frame keys =>
    apply atEnd_of_frame keys hfull
    simp only [act] at h
    split at h <;> simp_all
  | step =>
    rw [act_step] at h
    cases hs : m.step with
    | error g =>
      rw [hs] at h
      cases h
      exact atEnd_of_step hfull hs
    | ok n =>
      rw [hs] at h
      cases h
  | fetch =>
    simp only [act] at h
    split at h
    next g hg =>
      cases h
      exact atEnd_of_fetch hfull hg
    next => cases h
  | execute i =>
    simp only [act] at h
    rcases tryExecute_cases m i with hi | hi <;> simp [hi] at h
  | jump a => cases h
  | load image =>
    refine absurd h (not_fault_of_loaded ?_)
    have := loadMemory_ne_fault m image f
    unfold load
    cases hm : m.loadMemory image <;> simp_all [Except.map]
  | loadMemory image => exact absurd h (not_fault_of_loaded (loadMemory_ne_fault m image f))
  | loadFile file =>
    refine absurd h (not_fault_of_loaded ?_)
    cases file with
    | error reason => simp [loadFile, Except.map]
    | ok image =>
      have := loadMemory_ne_fault m image f
      cases hm : m.loadMemory image <;> simp_all [loadFile, Except.map]
  | reset => cases h
  | write a bytes =>
    simp only [act, write] at h
    split at h <;> cases h

/-! ### Picture and sound -/

theorem picture_le_of_full (hfull : m.Full) : m.pictureStart + pictureSize ≤ m.memory.size := by
  have := (m.memory.byte 5).toNat_lt
  rw [hfull, pictureStart, pictureSize, Address.reach]
  omega

theorem sound_le_of_full (hfull : m.Full) : m.soundStart + soundSize ≤ m.memory.size := by
  have := (m.memory.byte 6).toNat_lt
  have := (m.memory.byte 7).toNat_lt
  rw [hfull, soundStart, soundSize, Address.reach]
  omega

end Machine

end ByteByteJump
