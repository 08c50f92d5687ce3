import ByteByteJump.Failure
import ByteByteJump.Memory

/-! The machine: a memory, a program counter and the count of a frame.

An instruction is fetched afresh from memory each time, as a program may change
its own code. Fetching checks that nine bytes are left at the program counter
and then that each operand names a byte, in the order source, target, next.
After that check an execution cannot fail (`execute?_of_fetch`): it copies one byte
and jumps. The first eight bytes of memory are a header: keys, entry point, and the
places of the picture and of the sound. -/
namespace ByteByteJump

structure Machine where
  memory : Memory
  pc : Address
  /-- Instructions executed by the latest frame. -/
  executed : Nat

namespace Machine

/-- A machine at rest: the program counter at 0 and no frame run. -/
def ofMemory (m : Memory) : Machine := ⟨m, 0, 0⟩

/-- The machine with a full memory, all zero. -/
def blank : Machine := ofMemory .full

def jump (m : Machine) (a : Address) : Machine := { m with pc := a }

/-! ### One instruction -/

/-- The instruction at the program counter, or why it cannot be executed. -/
def fetch (m : Machine) : Except Fault Instruction :=
  match m.memory.instruction? m.pc with
  | none => .error (.instructionPointer m.pc)
  | some i =>
    match i.operands.find? fun a => m.memory.size ≤ a.toNat with
    | some a => .error (.operandAddress m.pc a)
    | none => .ok i

/-- Copies a byte and jumps. -/
def perform (m : Machine) (i : Instruction) : Machine :=
  match m with
  | ⟨memory, _, executed⟩ => ⟨memory.copy i.source i.target, i.next, executed⟩

/-- Executes an instruction, fetched or not, if the bytes that it copies are there. -/
@[inline] def execute? (m : Machine) (i : Instruction) : Option Machine :=
  if i.source.toNat < m.memory.size ∧ i.target.toNat < m.memory.size then some (m.perform i) else none

def step (m : Machine) : Except Fault Machine :=
  match m.fetch with
  | .error f => .error f
  | .ok i => .ok (m.perform i)

/-! ### Loading -/

/-- Loads an image into the memory and leaves the program counter. -/
def loadMemory (m : Machine) (image : ByteArray) : Except Failure Machine :=
  match m.memory.load? image with
  | some memory => .ok { m with memory }
  | none => .error (.programTooLarge image.size m.memory.size)

/-- Loads an image and starts over at address 0. -/
def load (m : Machine) (image : ByteArray) : Except Failure Machine :=
  (m.loadMemory image).map (·.jump 0)

/-- Loads what reading a file gave, and tells its length. -/
def loadFile (m : Machine) (file : Except String ByteArray) : Except Failure (Machine × Nat) :=
  match file with
  | .error reason => .error (.io reason)
  | .ok image => (m.loadMemory image).map (·, image.size)

def reset (m : Machine) : Machine := { m with memory := m.memory.clear }

/-- Puts bytes into memory as far as they have a place. -/
def write (m : Machine) (a : Address) (bytes : List UInt8) : Machine × Except (Stop Failure) Unit :=
  match m with
  | ⟨memory, pc, executed⟩ =>
    let r := memory.write a bytes
    (⟨r.1, pc, executed⟩, if r.2 then .ok () else .error .outOfRange)

/-! ### The header and the places it names -/

namespace Header

/-- The keys, two bytes. -/
def keys : Address := 0

/-- The entry point of a frame, three bytes. -/
def entry : Address := 2

/-- The picture's place in units of 65536 bytes, one byte. -/
def picture : Address := 5

/-- The sound's place in units of 256 bytes, two bytes. -/
def sound : Address := 6

end Header

/-- The bytes of a picture: 256 rows of 256 colour numbers. -/
def pictureSize : Nat := 65536

/-- The bytes of a frame's sound. -/
def soundSize : Nat := 256

def pictureBase? (m : Machine) : Option Nat :=
  (m.memory.get? Header.picture).map (·.toNat * pictureSize)

def soundBase? (m : Machine) : Option Nat :=
  (m.memory.word? Header.sound).map (·.toNat * soundSize)

def picture? (m : Machine) : Option ByteArray := do
  m.memory.slice? (← m.pictureBase?) pictureSize

def sound? (m : Machine) : Option ByteArray := do
  m.memory.slice? (← m.soundBase?) soundSize

/-! ### What a step does -/

theorem step_eq_ok_iff {m n : Machine} :
    m.step = .ok n ↔ ∃ i, m.fetch = .ok i ∧ n = m.perform i := by
  unfold step
  cases m.fetch <;> simp [eq_comm]

theorem step_eq_error_iff {m : Machine} {f : Fault} : m.step = .error f ↔ m.fetch = .error f := by
  unfold step
  cases m.fetch <;> simp

/-- A fetched instruction names only bytes that are there. -/
theorem lt_size_of_fetch {m : Machine} {i : Instruction} (h : m.fetch = .ok i) {a : Address}
    (ha : a ∈ i.operands) : a.toNat < m.memory.size := by
  unfold fetch at h
  split at h
  · cases h
  · split at h
    · cases h
    next hf =>
      cases h
      simpa using List.find?_eq_none.1 hf a ha

/-- A fetched instruction reaches for nothing outside the memory. -/
theorem execute?_of_fetch {m : Machine} {i : Instruction} (h : m.fetch = .ok i) :
    m.execute? i = some (m.perform i) := by
  have hsource : i.source.toNat < m.memory.size :=
    lt_size_of_fetch h (by simp [Instruction.operands])
  have htarget : i.target.toNat < m.memory.size :=
    lt_size_of_fetch h (by simp [Instruction.operands])
  rw [execute?, if_pos ⟨hsource, htarget⟩]

@[simp] theorem memory_perform (m : Machine) (i : Instruction) :
    (m.perform i).memory = m.memory.copy i.source i.target := rfl

@[simp] theorem pc_perform (m : Machine) (i : Instruction) : (m.perform i).pc = i.next := rfl

@[simp] theorem executed_perform (m : Machine) (i : Instruction) :
    (m.perform i).executed = m.executed := rfl

end Machine

end ByteByteJump
