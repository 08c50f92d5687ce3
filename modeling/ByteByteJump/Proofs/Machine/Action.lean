import ByteByteJump.Proofs.Machine.Frame

/-! What can be done to a machine from outside.

An `Action` is one use of a machine by its owner: a frame, a single instruction,
a load, a write. `act` is the machine it leaves and how it came out, with every
place where a byte outside the memory could be reached for kept visible: an
instruction is executed through `execute?` here even when it was fetched, and
that this never misses is a fact about fetching (`execute?_of_fetch`), not part
of the definition. No action changes the number of bytes (`size_act`), and only
frames touch the count of executed instructions (`executed_act`). -/
namespace ByteByteJump.Machine

inductive Action where
  | frame (keys : Keypad)
  | step
  /-- Looks at the instruction at the program counter. -/
  | fetch
  /-- Executes an instruction that was not fetched. -/
  | execute (i : Instruction)
  | jump (a : Address)
  | load (image : ByteArray)
  | loadMemory (image : ByteArray)
  | loadFile (file : Except String ByteArray)
  | reset
  | write (a : Address) (bytes : List UInt8)

/-- The end of an action that executes an instruction. -/
def tryExecute (m : Machine) (i : Instruction) : Machine × Except (Stop Failure) Unit :=
  match m.execute? i with
  | some n => (n, .ok ())
  | none => (m, .error .outOfRange)

/-- The end of an action that loads: all or nothing. -/
def loaded (m : Machine) : Except Failure Machine → Machine × Except (Stop Failure) Unit
  | .ok n => (n, .ok ())
  | .error e => (m, .error (.failed e))

def act (m : Machine) : Action → Machine × Except (Stop Failure) Unit
  | .frame keys =>
    match m.frame keys with
    | (n, .ok ()) => (n, .ok ())
    | (n, .error .outOfRange) => (n, .error .outOfRange)
    | (n, .error (.failed f)) => (n, .error (.failed (.fault f)))
  | .step =>
    match m.fetch with
    | .error f => (m, .error (.failed (.fault f)))
    | .ok i => m.tryExecute i
  | .fetch =>
    match m.fetch with
    | .error f => (m, .error (.failed (.fault f)))
    | .ok _ => (m, .ok ())
  | .execute i => m.tryExecute i
  | .jump a => (m.jump a, .ok ())
  | .load image => m.loaded (m.load image)
  | .loadMemory image => m.loaded (m.loadMemory image)
  | .loadFile file => m.loaded ((m.loadFile file).map (·.1))
  | .reset => (m.reset, .ok ())
  | .write a bytes => m.write a bytes

/-- The bytes an action names itself are there. The others name none. -/
def Action.Fits (size : Nat) : Action → Prop
  | .execute i => i.source.toNat < size ∧ i.target.toNat < size
  | .write a bytes => a.toNat + bytes.length ≤ size
  | _ => True

/-! ### Instructions -/

/-- An instruction whose operands are all there is fetched. -/
theorem fetch_eq_ok {m : Machine} {i : Instruction} (hi : m.memory.instruction? m.pc = some i)
    (hpresent : ∀ a ∈ i.operands, a.toNat < m.memory.size) : m.fetch = .ok i := by
  have hnone : i.operands.find? (fun a => decide (m.memory.size ≤ a.toNat)) = none := by
    rw [List.find?_eq_none]
    intro a ha
    simpa using hpresent a ha
  unfold fetch
  simp only [hi, hnone]

theorem tryExecute_of_fetch {m : Machine} {i : Instruction} (h : m.fetch = .ok i) :
    m.tryExecute i = (m.perform i, .ok ()) := by
  rw [tryExecute, execute?_of_fetch h]

theorem tryExecute_cases (m : Machine) (i : Instruction) :
    m.tryExecute i = (m.perform i, .ok ()) ∨ m.tryExecute i = (m, .error .outOfRange) := by
  unfold tryExecute execute?
  split
  next n heq =>
    split at heq
    · cases heq
      exact .inl rfl
    · cases heq
  next => exact .inr rfl

/-! ### What is kept -/

/-- A memory of the same size and the same count. -/
structure Kept (m n : Machine) : Prop where
  size : n.memory.size = m.memory.size
  executed : n.executed = m.executed

theorem Kept.refl (m : Machine) : Kept m m := ⟨rfl, rfl⟩

theorem kept_perform (m : Machine) (i : Instruction) : Kept m (m.perform i) :=
  ⟨by simp, rfl⟩

theorem kept_tryExecute (m : Machine) (i : Instruction) : Kept m (m.tryExecute i).1 := by
  rcases tryExecute_cases m i with h | h
  · rw [h]
    exact kept_perform m i
  · rw [h]
    exact .refl m

theorem kept_loadMemory {m n : Machine} {image : ByteArray} (h : m.loadMemory image = .ok n) :
    Kept m n := by
  unfold loadMemory at h
  split at h
  next memory hload =>
    cases h
    exact ⟨Memory.size_load hload, rfl⟩
  next => cases h

theorem kept_load {m n : Machine} {image : ByteArray} (h : m.load image = .ok n) : Kept m n := by
  unfold load at h
  cases hm : m.loadMemory image with
  | error e => simp [hm, Except.map] at h
  | ok k =>
    simp only [hm, Except.map, Except.ok.injEq] at h
    subst h
    exact ⟨(kept_loadMemory hm).size, (kept_loadMemory hm).executed⟩

theorem kept_loadFile {m : Machine} {r : Machine × Nat} {file : Except String ByteArray}
    (h : m.loadFile file = .ok r) : Kept m r.1 := by
  unfold loadFile at h
  split at h
  next => cases h
  next image =>
    cases hm : m.loadMemory image with
    | error e => simp [hm, Except.map] at h
    | ok k =>
      simp only [hm, Except.map, Except.ok.injEq] at h
      subst h
      exact kept_loadMemory hm

theorem kept_loaded {m : Machine} {r : Except Failure Machine} (h : ∀ n, r = .ok n → Kept m n) :
    Kept m (m.loaded r).1 := by
  cases r with
  | error e => exact .refl m
  | ok n => exact h n rfl

theorem kept_write (m : Machine) (a : Address) (bytes : List UInt8) :
    Kept m (m.write a bytes).1 :=
  ⟨Memory.size_write .., rfl⟩

/-! ### All actions -/

theorem kept_act {m : Machine} {a : Action} (h : ∀ keys, a ≠ .frame keys) : Kept m (m.act a).1 := by
  cases a with
  | frame keys => exact absurd rfl (h keys)
  | step =>
    simp only [act]
    split
    · exact .refl m
    · exact kept_tryExecute m _
  | fetch =>
    simp only [act]
    split <;> exact .refl m
  | execute i => exact kept_tryExecute m i
  | jump a => exact ⟨rfl, rfl⟩
  | load image => exact kept_loaded fun n hn => kept_load hn
  | loadMemory image => exact kept_loaded fun n hn => kept_loadMemory hn
  | loadFile file =>
    refine kept_loaded fun n hn => ?_
    cases hr : m.loadFile file with
    | error e => simp [hr, Except.map] at hn
    | ok r =>
      simp only [hr, Except.map, Except.ok.injEq] at hn
      exact hn ▸ kept_loadFile hr
  | reset => exact ⟨Memory.size_clear m.memory, rfl⟩
  | write a bytes => exact kept_write m a bytes

theorem executed_act (m : Machine) (a : Action) (h : ∀ keys, a ≠ .frame keys) :
    (m.act a).1.executed = m.executed :=
  (kept_act h).executed

theorem machine_act_frame (m : Machine) (keys : Keypad) :
    (m.act (.frame keys)).1 = (m.frame keys).1 := by
  simp only [act]
  split <;> simp_all

theorem size_act (m : Machine) (a : Action) : (m.act a).1.memory.size = m.memory.size := by
  by_cases h : ∃ keys, a = .frame keys
  · obtain ⟨keys, rfl⟩ := h
    rw [machine_act_frame]
    exact size_frame keys m
  · exact (kept_act fun keys hkeys => h ⟨keys, hkeys⟩).size

/-- A step as an action is the step of the machine: its fetched instruction
always has its bytes. -/
theorem act_step (m : Machine) :
    m.act .step =
      match m.step with
      | .ok n => (n, .ok ())
      | .error f => (m, .error (.failed (.fault f))) := by
  unfold act step
  cases h : m.fetch with
  | error f => rfl
  | ok i => exact tryExecute_of_fetch h

end ByteByteJump.Machine
