import ByteByteJump.Keypad
import ByteByteJump.Machine.Run

/-! One frame of the machine.

The keys go into the header, the program counter is read from it, and 65536
instructions follow. A fault ends the frame early and leaves the machine at the
faulting instruction, as would an instruction that copies a byte which is not there.
A memory without room for the keys and the entry point has
no frames: latching the keys stops at the first byte that is missing. -/
namespace ByteByteJump.Machine

/-- The instructions of a frame. -/
def frameLength : Nat := 65536

/-- Puts the keys into the header. -/
def latch (keys : Keypad) (m : Machine) : Machine × Except (Stop Failure) Unit :=
  m.write Header.keys keys.bytes

/-- Starts a frame at an entry point. -/
def enter (entry : Address) (m : Machine) : Machine := ⟨m.memory, entry, 0⟩

/-- Runs the instructions of a frame and counts them. -/
def runFrame (m : Machine) : Machine × Except (Stop Fault) Unit :=
  match steps frameLength m with
  | ⟨m, count, stop?⟩ =>
    ({ m with executed := count },
      match stop? with
      | none => .ok ()
      | some stop => .error stop)

def frame (keys : Keypad) (m : Machine) : Machine × Except (Stop Fault) Unit :=
  match m.latch keys with
  | (m, .error _) => (m, .error .outOfRange)
  | (m, .ok ()) =>
    match m.memory.address? Header.entry with
    | none => (m, .error .outOfRange)
    | some entry => runFrame (m.enter entry)

end ByteByteJump.Machine
