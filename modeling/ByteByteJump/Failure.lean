import ByteByteJump.Address

/-! What can go wrong, and how it is told.

A fault is the machine's: the next instruction cannot be read or names a byte
that is not there. A failure is anything that ends a run, a fault among them;
the others come from outside. Reaching for a byte that the memory does not hold
is neither, as nobody is told a cause: an operation that does so stops where it
is, and what it wrote before stays. -/
namespace ByteByteJump

/-- Why no instruction can be executed. -/
inductive Fault where
  /-- Fewer than nine bytes are left at the program counter. -/
  | instructionPointer (pc : Address)
  /-- The instruction at `pc` names an address outside the memory. -/
  | operandAddress (pc address : Address)
deriving DecidableEq, Repr

/-- Refusals of the window system. -/
inductive WindowFailure where
  | menusNotSupported
  | menuExists
  | notCreated
  | notUpdated
deriving DecidableEq, Repr

inductive Failure where
  | io (reason : String)
  | programTooLarge (size capacity : Nat)
  | fault (f : Fault)
  | window (w : WindowFailure)
  | audio (reason : String)
deriving DecidableEq, Repr

/-- Why an operation ended early. -/
inductive Stop (ε : Type) where
  | failed (cause : ε)
  /-- A byte outside the memory was reached for. -/
  | outOfRange
deriving DecidableEq, Repr

def Fault.text : Fault → String
  | instructionPointer pc =>
    "instruction pointer " ++ pc.text ++ " leaves no room for a 9 byte instruction"
  | operandAddress pc address =>
    "instruction at " ++ pc.text ++ " references out of range address " ++ address.text

def WindowFailure.text : WindowFailure → String
  | menusNotSupported => "Menus not supported"
  | menuExists => "Menu already exists"
  | notCreated => "Failed to create window"
  | notUpdated => "Failed to Update"

namespace Failure

def text : Failure → String
  | io reason => "io error: " ++ reason
  | programTooLarge size capacity =>
    "program image is " ++ toString size ++ " bytes but memory holds " ++ toString capacity
  | fault f => f.text
  | window w => "window error: " ++ w.text
  | audio reason => "audio error: " ++ reason

/-- The text and, where a failure passes on that of another party, the bare
reason under it. -/
def causes (f : Failure) : List String :=
  match f with
  | io reason => [f.text, reason]
  | window w => [f.text, w.text]
  | _ => [f.text]

end Failure

end ByteByteJump
