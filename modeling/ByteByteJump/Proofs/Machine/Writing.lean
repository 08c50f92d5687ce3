import ByteByteJump.Proofs.Machine.Step
import ByteByteJump.Proofs.Memory.Splice

/-! Putting a program into memory by hand.

Bytes are written one after the other, so a write that does not fit has an outcome half
way: the bytes up to the end of the memory are new and nothing else is. `Writing` lists how
a write comes out, for every memory of less than `2 ^ 32` bytes (no machine needs more than
`Address.reach`), every address and every list of bytes; `writing_exact` says that it is so.
Written and read back agree: by slices, and by fetching if the bytes are an instruction. -/
namespace ByteByteJump

theorem Memory.Spliced.window {m n : Memory} {k : Nat} {b : Vector UInt8 9}
    (h : m.Spliced k b.toList n) : n.Window k b := by
  intro j hj
  have hlength : j < b.toList.length := by simpa using hj
  rw [h.written j hlength]
  simp [hj]

namespace Machine

variable {m : Machine} {a : Address} {bytes : List UInt8}

theorem write_nil (m : Machine) (a : Address) : m.write a [] = (m, .ok ()) := rfl

theorem write_snd_of_fits (hsize : m.memory.size < UInt32.size)
    (h : a.toNat + bytes.length ≤ m.memory.size) : (m.write a bytes).2 = .ok () :=
  if_pos ((Memory.write_snd_iff hsize a bytes).2 (.inr h))

theorem write_snd_of_short (hsize : m.memory.size < UInt32.size) (hne : bytes ≠ [])
    (h : m.memory.size < a.toNat + bytes.length) :
    (m.write a bytes).2 = .error .outOfRange := by
  refine if_neg fun hall => ?_
  rcases (Memory.write_snd_iff hsize a bytes).1 hall with rfl | hfits
  · exact hne rfl
  · exact absurd hfits (Nat.not_le.2 h)

theorem spliced_of_fits (hsize : m.memory.size < UInt32.size)
    (h : a.toNat + bytes.length ≤ m.memory.size) :
    m.memory.Spliced a.toNat bytes (m.write a bytes).1.memory := by
  have hspliced := Memory.spliced_write hsize a bytes
  rwa [List.take_of_length_le (by omega)] at hspliced

/-- An instruction that was written is fetched from where it was written. -/
theorem fetch_of_spliced {n : Machine} {i : Instruction}
    (h : m.memory.Spliced a.toNat i.encode.toList n.memory)
    (hspelled : ∀ x ∈ i.operands, x.toNat < Address.reach)
    (hpresent : ∀ x ∈ i.operands, x.toNat < m.memory.size) : (n.jump a).fetch = .ok i := by
  have hfetch := fetch_of_window (m := n.jump a) h.window
  have hsize : (n.jump a).memory.size = m.memory.size := h.size
  rw [hfetch, (Instruction.decode_encode_eq_self_iff i).2 hspelled, hsize,
    Instruction.checked_eq_ok_iff]
  exact ⟨rfl, List.forall_mem_map.2 hpresent⟩

/-! ### All of it -/

/-- How a write comes out. -/
structure Writing (m : Machine) (a : Address) (bytes : List UInt8) : Prop where
  pc : (m.write a bytes).1.pc = m.pc
  executed : (m.write a bytes).1.executed = m.executed
  empty : bytes = [] → m.write a bytes = (m, .ok ())
  fits : a.toNat + bytes.length ≤ m.memory.size →
    (m.write a bytes).2 = .ok () ∧
      m.memory.Spliced a.toNat bytes (m.write a bytes).1.memory ∧
      (m.write a bytes).1.memory.slice? a.toNat bytes.length = some ⟨bytes.toArray⟩
  instruction : ∀ i : Instruction, bytes = i.encode.toList →
    a.toNat + bytes.length ≤ m.memory.size →
      (∀ x ∈ i.operands, x.toNat < Address.reach) → (∀ x ∈ i.operands, x.toNat < m.memory.size) →
        ((m.write a bytes).1.jump a).fetch = .ok i
  short : bytes ≠ [] → m.memory.size < a.toNat + bytes.length →
    (m.write a bytes).2 = .error .outOfRange ∧
      m.memory.Spliced a.toNat (bytes.take (m.memory.size - a.toNat)) (m.write a bytes).1.memory
  /-- The addresses asked for are numbers in a row, up to the first without a byte. -/
  addresses : ∃ asked, m.memory.sought a bytes = (asked, m.memory.write a bytes) ∧
    asked.map UInt32.toNat =
      List.range' a.toNat (min bytes.length (m.memory.size - a.toNat + 1))

/-- **A write puts all of its bytes in place, or those up to the end of the memory.** -/
theorem writing_exact (h : m.memory.size < UInt32.size) (a : Address) (bytes : List UInt8) :
    m.Writing a bytes where
  pc := rfl
  executed := rfl
  empty hempty := by rw [hempty, write_nil]
  fits hfits := by
    have hspliced := spliced_of_fits h hfits
    exact ⟨write_snd_of_fits h hfits, hspliced, hspliced.slice?_eq hfits⟩
  instruction i hbytes hfits hspelled hpresent := by
    have hspliced := spliced_of_fits h hfits
    rw [hbytes] at hspliced ⊢
    exact fetch_of_spliced hspliced hspelled hpresent
  short hne hshort := ⟨write_snd_of_short h hne hshort, Memory.spliced_write h a bytes⟩
  addresses :=
    ⟨_, Prod.ext rfl (Memory.sought_snd m.memory a bytes), Memory.map_sought h a bytes⟩

/-- Twelve bytes, for one instruction and not for two. -/
def strip : Machine := ⟨⟨⟨#[1, 2, 3, 4, 5, 6, 7, 8, 9, 10, 11, 12]⟩⟩, 5, 7⟩

/-- An instruction with operands in `strip`. -/
def nudge : Instruction := ⟨1, 11, 4⟩

/-- An instruction put into `strip` at 2 is fetched there; of one put there at 9 the first
three bytes are written. -/
theorem strip_written :
    ((strip.write 2 nudge.encode.toList).1.jump 2).fetch = .ok nudge ∧
      (strip.write 9 nudge.encode.toList).2 = .error .outOfRange ∧
      strip.memory.Spliced 9 [0, 0, 1] (strip.write 9 nudge.encode.toList).1.memory := by
  have hsize : strip.memory.size < UInt32.size := by decide
  have htwelve : strip.memory.size = 12 := rfl
  have hspelled : ∀ x ∈ nudge.operands, x.toNat < Address.reach := by
    simp [nudge, Instruction.operands, Address.reach]
  have hpresent : ∀ x ∈ nudge.operands, x.toNat < strip.memory.size := by
    simp [nudge, Instruction.operands, htwelve]
  have hfetch := (writing_exact hsize 2 _).instruction nudge rfl (by decide) hspelled hpresent
  obtain ⟨hstop, hspliced⟩ :=
    (writing_exact hsize 9 nudge.encode.toList).short (by decide) (by decide)
  exact ⟨hfetch, hstop, hspliced⟩

end Machine

end ByteByteJump
