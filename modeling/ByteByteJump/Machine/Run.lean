import ByteByteJump.Machine

/-! Runs of the machine: many instructions in a row.

A run ends after a given number of instructions or at the first that does not go well,
with the machine as the last one left it. An instruction that cannot be fetched is a
fault. One that is fetched goes through `execute?` like any other, and if a byte that it
copies were missing the run would end there; fetching has seen to it that none is, so the
equations of a run (`steps_succ_of_ok`, `steps_succ_of_error`) know only the fault.
`steps` counts; `trace` also records each instruction and the byte it wrote. -/
namespace ByteByteJump.Machine

/-- Where a run stands. -/
structure Progress where
  machine : Machine
  /-- Instructions that went well. -/
  count : Nat
  /-- What the run ended at, unless it was long enough. -/
  stop? : Option (Stop Fault)

/-- The fault that the run ended at. -/
def Progress.fault? (p : Progress) : Option Fault :=
  match p.stop? with
  | some (.failed f) => some f
  | _ => none

/-- Goes on for at most `n` instructions after `done` earlier ones. -/
def stepsFrom (done : Nat) : Nat → Machine → Progress
  | 0, m => ⟨m, done, none⟩
  | n + 1, m =>
    match m.fetch with
    | .error f => ⟨m, done, some (.failed f)⟩
    | .ok i =>
      match m.execute? i with
      | none => ⟨m, done, some .outOfRange⟩
      | some next => stepsFrom (done + 1) n next

/-- At most `n` instructions. -/
def steps (n : Nat) (m : Machine) : Progress := stepsFrom 0 n m

/-- An executed instruction: where it stood, what it was, and the byte at its
target afterwards. -/
structure Record where
  pc : Address
  instruction : Instruction
  byte : UInt8
deriving DecidableEq, Repr

/-- At most `n` instructions with a record of each. -/
def trace : Nat → Machine → List Record × Progress
  | 0, m => ([], ⟨m, 0, none⟩)
  | n + 1, m =>
    match m.fetch with
    | .error f => ([], ⟨m, 0, some (.failed f)⟩)
    | .ok i =>
      let pc := m.pc
      match m.execute? i with
      | none => ([], ⟨m, 0, some .outOfRange⟩)
      | some next =>
        let byte := (next.memory.get? i.target).getD 0
        let (records, p) := trace n next
        (⟨pc, i, byte⟩ :: records, { p with count := p.count + 1 })

theorem stepsFrom_eq (done n : Nat) (m : Machine) :
    stepsFrom done n m = { steps n m with count := done + (steps n m).count } := by
  induction n generalizing done m with
  | zero => rfl
  | succ n ih =>
    unfold steps
    rw [stepsFrom, stepsFrom]
    cases m.fetch with
    | error f => rfl
    | ok i =>
      dsimp only
      cases m.execute? i with
      | none => rfl
      | some next => simp only [ih (done + 1), ih 1, Nat.zero_add, Nat.add_assoc]

@[simp] theorem steps_zero (m : Machine) : steps 0 m = ⟨m, 0, none⟩ := rfl

theorem steps_succ_of_error {m : Machine} {f : Fault} (n : Nat) (h : m.step = .error f) :
    steps (n + 1) m = ⟨m, 0, some (.failed f)⟩ := by
  simp [steps, stepsFrom, step_eq_error_iff.1 h]

theorem steps_succ_of_ok {m m' : Machine} (n : Nat) (h : m.step = .ok m') :
    steps (n + 1) m = { steps n m' with count := (steps n m').count + 1 } := by
  obtain ⟨i, hi, rfl⟩ := step_eq_ok_iff.1 h
  simp [steps, stepsFrom, hi, execute?_of_fetch hi, stepsFrom_eq 1, Nat.add_comm]

end ByteByteJump.Machine
