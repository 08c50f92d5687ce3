import ByteByteJump.Host.Script
import ByteByteJump.Proofs.Machine.Output
import ByteByteJump.Proofs.Machine.Provenance
import ByteByteJump.Proofs.Session.History

/-! Where the bytes that a host sees come from.

The pictures and the sounds of a session are regions of its memory, and its memory
has only what was in it at the beginning and the keys that its frames latched
(`Machine.supplied_of_frame`). So at every moment that is all that has been handed
out (`bytes_are_only_copied`): no host is shown a byte that a program computed. -/
namespace ByteByteJump

/-- A byte that an exchange hands to the host. -/
def Exchange.Hands : Exchange → UInt8 → Prop
  | .poll _, _ => False
  | .present picture _, v => v ∈ picture.data
  | .play sound _, v => v ∈ sound.data

/-- The keys of the frames that the machine set out on. -/
def Account.latched (a : Account) : List Keypad := a.attempts.map Attempt.keys

@[simp] theorem Account.latched_append (a b : Account) :
    (a ++ b).latched = a.latched ++ b.latched := List.map_append

/-- All that one machine holds is supplied by another, and so is what it supplies. -/
theorem Machine.Supplies.through {m n : Machine} {earlier later : List Keypad}
    (hn : ∀ c v, n.memory.cell? c = some v → m.Supplies earlier v) {v : UInt8}
    (h : n.Supplies later v) : m.Supplies (earlier ++ later) v := by
  rcases h with ⟨c, hc⟩ | ⟨keys, hkeys, hv⟩
  · exact (hn c v hc).mono (List.subset_append_left _ _)
  · exact .inr ⟨keys, List.mem_append_right _ hkeys, hv⟩

section Courses
variable {x y : Standing} {a : Account} {ns : List Notice} {keys : Keypad}
  {r : Except (Stop Failure) Unit}

theorem Delivery.hands {m : Machine} {n k : Nat} {xs : List Exchange} (h : Delivery m n xs k r)
    {e : Exchange} (he : e ∈ xs) {v : UInt8} (hv : e.Hands v) :
    ∃ c, m.memory.cell? c = some v := by
  have hpicture {p : ByteArray} (hp : m.picture? = some p) (hv : v ∈ p.data) :
      ∃ c, m.memory.cell? c = some v :=
    ((Machine.picture?_eq_some_iff m p).1 hp).exists_cell? hv
  have hsound {p : ByteArray} (hp : m.sound? = some p) (hv : v ∈ p.data) :
      ∃ c, m.memory.cell? c = some v :=
    ((Machine.sound?_eq_some_iff m p).1 hp).exists_cell? hv
  cases h with
  | unshown => cases he
  | presentFailed hp =>
    cases List.mem_singleton.1 he
    exact hpicture hp hv
  | unheard hp =>
    cases List.mem_singleton.1 he
    exact hpicture hp hv
  | playFailed hp ha =>
    rcases List.mem_pair.1 he with rfl | rfl
    · exact hpicture hp hv
    · exact hsound ha hv
  | complete hp ha =>
    rcases List.mem_pair.1 he with rfl | rfl
    · exact hpicture hp hv
    · exact hsound ha hv

/-- What a frame hands out is in the memory that it leaves. -/
theorem FrameCourse.hands (h : FrameCourse keys x a ns y r) {e : Exchange} (he : e ∈ a.exchanges)
    {v : UInt8} (hv : e.Hands v) : ∃ c, y.machine.memory.cell? c = some v := by
  cases h with
  | refused => cases he
  | stuck => cases he
  | faulted => cases he
  | delivered _ _ hd => exact hd.hands he hv

end Courses

/-- All that a session holds and has handed out was in a machine or is of the keys latched
since. -/
structure Supplied (m : Machine) (a : Account) (x : Standing) : Prop where
  five_le : 5 ≤ x.machine.memory.size
  held : ∀ c v, x.machine.memory.cell? c = some v → m.Supplies a.latched v
  handed : ∀ e ∈ a.exchanges, ∀ v, e.Hands v → m.Supplies a.latched v

namespace Supplied

variable {m : Machine} {a b : Account} {x y : Standing} {keys : Keypad} {ns : List Notice}
  {r : Except (Stop Failure) Unit}

theorem start (x : Standing) (h : 5 ≤ x.machine.memory.size) : Supplied x.machine .empty x :=
  ⟨h, fun c _ hc => .inl ⟨c, hc⟩, nofun⟩

theorem poll (h : Supplied m a x) (answer : Except Failure Input) :
    Supplied m (a ++ ⟨[.poll answer], []⟩) x := by
  have hlatched : (a ++ ⟨[.poll answer], []⟩).latched = a.latched :=
    (Account.latched_append ..).trans (List.append_nil _)
  refine ⟨h.five_le, ?_, fun e he v hv => ?_⟩
  · rw [hlatched]
    exact h.held
  · rw [hlatched]
    rcases List.mem_append.1 he with he | he
    · exact h.handed e he v hv
    · cases List.mem_singleton.1 he
      cases hv

/-- The machine that a frame leaves is supplied by what it started with and its keys. -/
theorem held_of_frame (h : Supplied m a x) (hf : FrameCourse keys x b ns y r) (c : Nat) (v : UInt8)
    (hc : y.machine.memory.cell? c = some v) : m.Supplies (a.latched ++ b.latched) v := by
  rcases hf.machine_cases with ⟨hmachine, -⟩ | ⟨hmachine, hattempts⟩
  · rw [hmachine] at hc
    exact (h.held c v hc).mono (List.subset_append_left _ _)
  · rw [hmachine] at hc
    have hlatched : b.latched = [keys] := by rw [Account.latched, hattempts]; rfl
    rw [hlatched]
    exact .through h.held (Machine.supplied_of_frame h.five_le hc)

theorem frame (h : Supplied m a x) (hf : FrameCourse keys x b ns y r) : Supplied m (a ++ b) y := by
  refine ⟨?_, ?_, fun e he v hv => ?_⟩
  · rcases hf.machine_cases with ⟨hmachine, -⟩ | ⟨hmachine, -⟩
    · rw [hmachine]
      exact h.five_le
    · rw [hmachine, Machine.size_frame]
      exact h.five_le
  · rw [Account.latched_append]
    exact h.held_of_frame hf
  · rw [Account.latched_append]
    rcases List.mem_append.1 he with he | he
    · exact (h.handed e he v hv).mono (List.subset_append_left _ _)
    · obtain ⟨c, hc⟩ := hf.hands he hv
      exact h.held_of_frame hf c v hc

theorem of_moment {σ : Type} {host : Host σ} {s t : Session σ} (hs : 5 ≤ s.machine.memory.size)
    (h : Moment host (fun _ _ => False) s a t) : Supplied s.machine a t.standing :=
  h.keeps (P := Supplied s.machine) poll (fun hx _ _ _ _ _ hf => hx.frame hf) (fun _ _ hm => hm.elim)
    (start s.standing hs)

end Supplied

/-- **A machine only copies.** After any number of instructions, every cell holds what some
cell held before them, and what no instruction wrote is in its place. New bytes are the
keys that frames latch: whatever memory holds after some frames, complete or not, was there
before or is a byte of their keys, and so is, at every moment of a session, all that it
holds and has handed to its host. One frame changes no more cells than two for the keys
and one for each instruction it executes. -/
theorem bytes_are_only_copied (m : Machine) :
    (∀ k last, Machine.after k m = .ok last →
      ∃ p : Nat → Nat, (∀ c < m.memory.size, p c < m.memory.size) ∧
        (∀ c, last.memory.cell? c = m.memory.cell? (p c)) ∧ ∀ c, c ∉ m.targets k → p c = c) ∧
    (5 ≤ m.memory.size →
      (∀ latched c v, (m.frames latched).memory.cell? c = some v → m.Supplies latched v) ∧
      (∀ keys, (m.changed (m.frame keys).1).length ≤ (m.frame keys).1.executed + 2 ∧
        (m.frame keys).1.executed + 2 ≤ 65538) ∧
      ∀ {σ : Type} (host : Host σ) (s t : Session σ) (a : Account), s.machine = m →
        Moment host (fun _ _ => False) s a t →
        (∀ c v, t.machine.memory.cell? c = some v → m.Supplies a.latched v) ∧
          ∀ e ∈ a.exchanges, ∀ v, e.Hands v → m.Supplies a.latched v) := by
  refine ⟨fun k last hlast => ?_, fun h5 => ⟨fun latched c v => Machine.supplied_of_frames h5,
    Machine.length_changed_frame h5, ?_⟩⟩
  · obtain ⟨p, hcopied, hkept⟩ := Machine.after_copies hlast
    refine ⟨p, fun c hc => hcopied.lt_size ?_, hcopied, hkept⟩
    rwa [Machine.size_of_after hlast]
  · intro σ host s t a hs hmoment
    subst hs
    have hsupplied := Supplied.of_moment h5 hmoment
    exact ⟨hsupplied.held, hsupplied.handed⟩

namespace Machine

/-- A program that copies the second byte of the keys to cell 20 and jumps to where no
instruction fits. -/
def echo : Machine :=
  ⟨⟨⟨#[0, 0, 0, 0, 8, 0, 0, 0, 0, 0, 1, 0, 0, 20, 0, 0, 24, 0, 0, 0, 7, 0, 0, 0, 0, 0, 0, 0]⟩⟩, 0, 0⟩

/-- Keys 8 to F. -/
def lowKeys : Keypad := ⟨Vector.ofFn fun k => decide (8 ≤ k.val)⟩

theorem frame_echo : echo.frame lowKeys =
    ({ (echo.start lowKeys).perform ⟨1, 20, 24⟩ with executed := 1 },
      .error (.failed (.instructionPointer 24))) :=
  frame_of_fault (by decide) (by decide) rfl rfl

end Machine

/-- A frame that faults has brought in a byte all the same; it can only be one of the keys. -/
theorem echo_supplied_by_keys :
    5 ≤ Machine.echo.memory.size ∧
      (Machine.echo.frames [Machine.lowKeys]).memory.cell? 20 = some 255 ∧
      (∀ c, Machine.echo.memory.cell? c ≠ some 255) ∧
      Machine.echo.Supplies [Machine.lowKeys] 255 ∧
      (Machine.echo.changed (Machine.echo.frame Machine.lowKeys).1).length ≤ 3 := by
  have h5 : 5 ≤ Machine.echo.memory.size := by decide
  obtain ⟨hframes, hchanged, -⟩ := (bytes_are_only_copied Machine.echo).2 h5
  have hcell : (Machine.echo.frames [Machine.lowKeys]).memory.cell? 20 = some 255 := by
    rw [Machine.frames, Machine.frames, Machine.frame_echo]
    rfl
  refine ⟨h5, hcell, fun c hc => ?_, hframes _ 20 255 hcell, ?_⟩
  · have hnone : ∀ c < Machine.echo.memory.size, Machine.echo.memory.cell? c ≠ some 255 := by decide
    exact hnone c (Memory.lt_size_of_cell? hc) hc
  · have hle := (hchanged Machine.lowKeys).1
    rwa [Machine.frame_echo] at hle ⊢

end ByteByteJump
