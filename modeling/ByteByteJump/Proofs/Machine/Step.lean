import ByteByteJump.Proofs.Machine.Cell
import ByteByteJump.Proofs.Memory.Window

/-! One instruction, exactly.

Nine bytes at the program counter or a fault; three operands that the memory holds or a
fault of the first that it lacks; and then one byte copied and a jump to where the
operands said before the copy. `OneStep` lists this for every memory and program counter,
with what a fault leaves (everything) and what the copy does to instructions that are
read later, the one just executed among them. `step_exact` says that it is so. -/
namespace ByteByteJump

/-- An instruction read at `pc`, or the fault of its first operand that a memory of `size`
bytes lacks. -/
def Instruction.checked (size : Nat) (pc : Address) (i : Instruction) : Except Fault Instruction :=
  match i.operands.find? fun a => size ≤ a.toNat with
  | some a => .error (.operandAddress pc a)
  | none => .ok i

/-- The first number of a list that is not below a bound. -/
def FirstBeyond (bound : Nat) (xs : List Nat) (x : Nat) : Prop :=
  bound ≤ x ∧ ∃ before after, xs = before ++ x :: after ∧ ∀ y ∈ before, y < bound

theorem firstBeyond_iff {bound x : Nat} {xs : List Nat} :
    FirstBeyond bound xs x ↔ xs.find? (bound ≤ ·) = some x := by
  simp [List.find?_eq_some_iff_append, FirstBeyond]

namespace Instruction

variable {size : Nat} {pc : Address} {i j : Instruction} {f : Fault}

theorem checked_eq_ok_iff :
    i.checked size pc = .ok j ↔ j = i ∧ ∀ x ∈ i.operands.map UInt32.toNat, x < size := by
  have hall : (∀ x ∈ i.operands.map UInt32.toNat, x < size) ↔
      i.operands.find? (fun a => decide (size ≤ a.toNat)) = none := by simp
  rw [hall, checked]
  cases i.operands.find? (fun a => decide (size ≤ a.toNat)) with
  | none => simp [eq_comm]
  | some a => simp

theorem checked_eq_error_iff :
    i.checked size pc = .error f ↔
      ∃ a : Address, f = .operandAddress pc a ∧
        FirstBeyond size (i.operands.map UInt32.toNat) a.toNat := by
  have hfirst (a : Address) : FirstBeyond size (i.operands.map UInt32.toNat) a.toNat ↔
      i.operands.find? (fun a => decide (size ≤ a.toNat)) = some a := by
    simp only [firstBeyond_iff, List.find?_map, Function.comp_def, Option.map_eq_some_iff,
      UInt32.toNat_inj, exists_eq_right]
  simp only [hfirst, checked]
  cases i.operands.find? (fun a => decide (size ≤ a.toNat)) with
  | none => simp
  | some a => simp [eq_comm]

end Instruction

namespace Machine

variable {m n : Machine} {i : Instruction} {b : Vector UInt8 9}

/-! ### Reading the instruction -/

theorem fetch_of_no_room (h : m.memory.size < m.pc.toNat + 9) :
    m.fetch = .error (.instructionPointer m.pc) := by
  unfold fetch
  rw [Memory.instruction?_eq_none h]

theorem fetch_of_window (h : m.memory.Window m.pc.toNat b) :
    m.fetch = (Instruction.decode b).checked m.memory.size m.pc := by
  unfold fetch
  rw [Memory.instruction?_of_window h]
  rfl

/-- The numbers that the memory spells at the program counter: source, target and next. -/
def spelled (m : Machine) : List Nat := m.memory.numbersAt m.pc.toNat

theorem step_of_no_room (h : m.memory.size < m.pc.toNat + 9) :
    m.step = .error (.instructionPointer m.pc) :=
  step_eq_error_iff.2 (fetch_of_no_room h)

theorem step_eq_error_iff_of_window (h : m.memory.Window m.pc.toNat b) {f : Fault} :
    m.step = .error f ↔
      ∃ a : Address, f = .operandAddress m.pc a ∧
        FirstBeyond m.memory.size m.spelled a.toNat := by
  rw [step_eq_error_iff, fetch_of_window h, Instruction.checked_eq_error_iff,
    Memory.map_operands_of_window h, spelled]

theorem step_eq_ok_iff_of_window (h : m.memory.Window m.pc.toNat b) :
    m.step = .ok n ↔
      (∀ x ∈ m.spelled, x < m.memory.size) ∧ n = m.perform (.decode b) := by
  rw [step_eq_ok_iff, fetch_of_window h]
  simp only [Instruction.checked_eq_ok_iff, Memory.map_operands_of_window h, and_assoc,
    exists_eq_left, spelled]

/-! ### Executing it -/

/-- `n` is `m` with the byte of one cell copied into another, and standing elsewhere. -/
structure Copies (m : Machine) (source target next : Nat) (n : Machine) : Prop where
  size : n.memory.size = m.memory.size
  cells : ∀ c, n.memory.cell? c = m.memory.cell? (if c = target then source else c)
  pc : n.pc.toNat = next
  executed : n.executed = m.executed

theorem copies_perform (hs : i.source.toNat < m.memory.size)
    (ht : i.target.toNat < m.memory.size) :
    Copies m i.source.toNat i.target.toNat i.next.toNat (m.perform i) :=
  ⟨by simp, Memory.cell?_copy hs ht, rfl, rfl⟩

theorem Copies.unique {source target next : Nat} {p : Machine} (hn : Copies m source target next n)
    (hp : Copies m source target next p) : n = p := by
  obtain ⟨memory, pc, executed⟩ := n
  obtain ⟨memory', pc', executed'⟩ := p
  have hmemory : memory = memory' :=
    Memory.ext_cell fun c => (hn.cells c).trans (hp.cells c).symm
  have hpc : pc = pc' := UInt32.toNat_inj.1 (hn.pc.trans hp.pc.symm)
  have hexecuted : executed = executed' := hn.executed.trans hp.executed.symm
  rw [hmemory, hpc, hexecuted]

theorem lt_size_of_spelled (h : m.memory.Window m.pc.toNat b)
    (hpresent : ∀ x ∈ m.spelled, x < m.memory.size) :
    (Instruction.decode b).source.toNat < m.memory.size ∧
      (Instruction.decode b).target.toNat < m.memory.size := by
  obtain ⟨hsource, htarget, -⟩ := Memory.operands_of_window h
  rw [hsource, htarget]
  exact ⟨hpresent _ (.head _), hpresent _ (.tail _ (.head _))⟩

theorem step_eq_ok_iff_copies :
    m.step = .ok n ↔
      m.pc.toNat + 9 ≤ m.memory.size ∧ (∀ x ∈ m.spelled, x < m.memory.size) ∧
        Copies m (m.memory.number m.pc.toNat) (m.memory.number (m.pc.toNat + 3))
          (m.memory.number (m.pc.toNat + 6)) n := by
  by_cases hroom : m.pc.toNat + 9 ≤ m.memory.size
  · obtain ⟨b, hb⟩ := Memory.exists_window_iff.2 hroom
    obtain ⟨hsource, htarget, hnext⟩ := Memory.operands_of_window hb
    rw [step_eq_ok_iff_of_window hb, ← hsource, ← htarget, ← hnext, and_iff_right hroom]
    refine and_congr_right fun hpresent => ?_
    obtain ⟨hs, ht⟩ := lt_size_of_spelled hb hpresent
    have hperform := copies_perform hs ht
    exact ⟨fun h => h ▸ hperform, fun h => h.unique hperform⟩
  · have hfault := step_of_no_room (Nat.lt_of_not_le hroom)
    simp [hfault, hroom]

theorem execute?_eq_none_iff :
    m.execute? i = none ↔ m.memory.size ≤ i.source.toNat ∨ m.memory.size ≤ i.target.toNat := by
  unfold execute?
  split
  next h => simp [h]
  next h => exact iff_of_true rfl (by omega)

theorem copies_of_execute? (h : m.execute? i = some n) :
    Copies m i.source.toNat i.target.toNat i.next.toNat n := by
  unfold execute? at h
  split at h
  next hpresent =>
    cases h
    exact copies_perform hpresent.1 hpresent.2
  next => cases h

/-! ### Reading on -/

/-- What `n` reads at `a` if it is `m` after its copy: the nine bytes that `m` has there with
the copied one in its place, if that is among them, and what `m` reads if it is not. -/
def Rereads (m n : Machine) (a : Address) : Prop :=
  ∃ w v, m.memory.Window a.toNat w ∧ m.memory.cell? (m.memory.number m.pc.toNat) = some v ∧
    (n.jump a).fetch =
      (Instruction.decode
        (Memory.replaced w a.toNat (m.memory.number (m.pc.toNat + 3)) v)).checked m.memory.size a ∧
    (m.memory.number (m.pc.toNat + 3) < a.toNat ∨
      a.toNat + 9 ≤ m.memory.number (m.pc.toNat + 3) → (n.jump a).fetch = (m.jump a).fetch)

theorem rereads_of_step (h : m.step = .ok n) {a : Address} (ha : a.toNat + 9 ≤ m.memory.size) :
    Rereads m n a := by
  obtain ⟨i, hi, -⟩ := step_eq_ok_iff.1 h
  obtain ⟨b, hb⟩ := Memory.exists_window_iff.2 (room_of_fetch hi)
  obtain ⟨w, hw⟩ := Memory.exists_window_iff.2 ha
  obtain ⟨hpresent, rfl⟩ := (step_eq_ok_iff_of_window hb).1 h
  obtain ⟨hsource, htarget, -⟩ := Memory.operands_of_window hb
  obtain ⟨hs, ht⟩ := lt_size_of_spelled hb hpresent
  rw [Rereads, ← hsource, ← htarget]
  obtain ⟨v, hv⟩ := Option.isSome_iff_exists.1 (Memory.isSome_cell?.2 hs)
  have hfetch : ((m.perform (.decode b)).jump a).fetch = _ := fetch_of_window (hw.copy hv ht)
  have hsize : ((m.perform (.decode b)).jump a).memory.size = m.memory.size :=
    (copies_perform hs ht).size
  rw [hsize] at hfetch
  refine ⟨w, v, hw, hv, hfetch, fun houtside => ?_⟩
  rw [hfetch, Memory.replaced_of_outside houtside]
  exact (fetch_of_window (m := m.jump a) hw).symm

/-! ### All of it -/

/-- How one instruction comes out. -/
structure OneStep (m : Machine) : Prop where
  /-- No byte outside the memory is reached for. -/
  inRange : (m.act .step).2 ≠ .error .outOfRange
  noRoom : ∀ pc, m.step = .error (.instructionPointer pc) ↔
    m.memory.size < m.pc.toNat + 9 ∧ pc = m.pc
  missing : ∀ pc a, m.step = .error (.operandAddress pc a) ↔
    m.pc.toNat + 9 ≤ m.memory.size ∧ pc = m.pc ∧ FirstBeyond m.memory.size m.spelled a.toNat
  done : ∀ n, m.step = .ok n ↔
    m.pc.toNat + 9 ≤ m.memory.size ∧ (∀ x ∈ m.spelled, x < m.memory.size) ∧
      Copies m (m.memory.number m.pc.toNat) (m.memory.number (m.pc.toNat + 3))
        (m.memory.number (m.pc.toNat + 6)) n
  /-- A fault leaves the machine as it is, so every further attempt ends in it, too. -/
  faulted : ∀ f, m.step = .error f → ∀ k,
    (Nat.repeat (fun x => (x.act .step).1) k m).act .step = (m, .error (.failed (.fault f)))
  /-- Instructions read after the copy, this one among them, have the copied byte. -/
  refetched : ∀ n, m.step = .ok n →
    ∀ a : Address, a.toNat + 9 ≤ m.memory.size → Rereads m n a
  /-- Executed without being fetched, an instruction has only its copy to fail at. -/
  unfetched : ∀ i,
    (m.execute? i = none ↔ m.memory.size ≤ i.source.toNat ∨ m.memory.size ≤ i.target.toNat) ∧
      ∀ n, m.execute? i = some n → Copies m i.source.toNat i.target.toNat i.next.toNat n

theorem noRoom_iff {pc : Address} :
    m.step = .error (.instructionPointer pc) ↔ m.memory.size < m.pc.toNat + 9 ∧ pc = m.pc := by
  by_cases hroom : m.pc.toNat + 9 ≤ m.memory.size
  · obtain ⟨b, hb⟩ := Memory.exists_window_iff.2 hroom
    rw [step_eq_error_iff_of_window hb]
    simp [Nat.not_lt.2 hroom]
  · have hshort := Nat.lt_of_not_le hroom
    simp [step_of_no_room hshort, hshort, eq_comm]

theorem missing_iff {pc a : Address} :
    m.step = .error (.operandAddress pc a) ↔
      m.pc.toNat + 9 ≤ m.memory.size ∧ pc = m.pc ∧
        FirstBeyond m.memory.size m.spelled a.toNat := by
  by_cases hroom : m.pc.toNat + 9 ≤ m.memory.size
  · obtain ⟨b, hb⟩ := Memory.exists_window_iff.2 hroom
    rw [step_eq_error_iff_of_window hb]
    simp [hroom, and_assoc]
  · simp [step_of_no_room (Nat.lt_of_not_le hroom), hroom]

theorem act_step_repeat {f : Fault} (h : m.step = .error f) (k : Nat) :
    (Nat.repeat (fun x => (x.act .step).1) k m).act .step = (m, .error (.failed (.fault f))) := by
  have hact : m.act .step = (m, .error (.failed (.fault f))) := by rw [act_step, h]
  have hstill : Nat.repeat (fun x => (x.act .step).1) k m = m := by
    induction k with
    | zero => rfl
    | succ k ih => rw [Nat.repeat, ih, hact]
  rw [hstill, hact]

/-- **One instruction does what its nine bytes say or nothing.** -/
theorem step_exact (m : Machine) : m.OneStep where
  inRange := by
    rw [act_step]
    cases m.step <;> simp
  noRoom _ := noRoom_iff
  missing _ _ := missing_iff
  done _ := step_eq_ok_iff_copies
  faulted _ := act_step_repeat
  refetched _ h _ ha := rereads_of_step h ha
  unfetched _ := ⟨execute?_eq_none_iff, fun _ => copies_of_execute?⟩

/-- The instruction at 0 puts byte 19 over the end of its own jump and jumps to 9. -/
def selfPatching : Machine :=
  ⟨⟨⟨#[0, 0, 19, 0, 0, 8, 0, 0, 9, 0, 0, 0, 0, 0, 0, 0, 0, 0, 0, 18]⟩⟩, 0, 0⟩

/-- It jumps to where it did before the copy, and to 18 when it is read again. -/
example : ∃ n, selfPatching.step = .ok n ∧ n.pc = 9 ∧ (n.jump 0).fetch = .ok ⟨19, 8, 18⟩ :=
  ⟨_, rfl, rfl, rfl⟩

end Machine

end ByteByteJump
