import ByteByteJump.Audio.Player
import ByteByteJump.Color
import ByteByteJump.Host.Script
import ByteByteJump.Keypad.Layout
import ByteByteJump.Main
import ByteByteJump.Proofs.Machine.Footprint
import ByteByteJump.Proofs.Pacer.Driven
import ByteByteJump.Proofs.Session.Accounting
import ByteByteJump.Proofs.Session.Provenance
import ByteByteJump.Proofs.Machine.SmallMemory
import ByteByteJump.Proofs.Machine.Refinement
import ByteByteJump.Proofs.Session.Aborted
import ByteByteJump.Proofs.Session.Protocol
import ByteByteJump.Proofs.Session.Twin
import ByteByteJump.Proofs.Pacer.Schedule
import ByteByteJump.Proofs.Session.Cadence
import ByteByteJump.Proofs.Pacer.Drift
import ByteByteJump.Proofs.Session.Overrun
import ByteByteJump.Proofs.Session.Limit
import ByteByteJump.Proofs.Session.Resume
import ByteByteJump.Proofs.Audio.Queue
import ByteByteJump.Proofs.Audio.Playback
import ByteByteJump.Proofs.Instruction.Codec
import ByteByteJump.Proofs.Memory.Window
import ByteByteJump.Proofs.Machine.Step
import ByteByteJump.Proofs.Machine.Loading
import ByteByteJump.Proofs.Pacer.Calls
import ByteByteJump.Proofs.Session.Waits
import ByteByteJump.Proofs.Machine.Writing
import ByteByteJump.Proofs.Audio.Buffer
import ByteByteJump.Proofs.Session.OutOfRange
import ByteByteJump.Proofs.Keypad.Changes
import ByteByteJump.Proofs.Audio.WholeRatio
import ByteByteJump.Proofs.CommandLine.Reading
