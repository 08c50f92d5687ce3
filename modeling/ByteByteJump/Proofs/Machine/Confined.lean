import ByteByteJump.Proofs.Machine.FullMemory

/-! Machines whose frames stay within the memory.

A memory may be too short for the header, or the header may place the picture or
the sound so that it reaches beyond the end; a program can bring that about in a
later frame. A machine is `Confined` if it never happens, now or after any frames
with any keys. A full memory confines its machine, whatever the program does. -/
namespace ByteByteJump.Machine

/-- The second machine comes from the first by complete frames. -/
inductive LeadsTo : Machine → Machine → Prop where
  | refl {m : Machine} : LeadsTo m m
  | next {m n last : Machine} {keys : Keypad} (hm : m.frame keys = (n, .ok ()))
      (h : LeadsTo n last) : LeadsTo m last

/-- No frame of the machine, nor of one that it leads to, reaches beyond the memory, in its
instructions or for its picture and its sound. -/
structure Confined (m : Machine) : Prop where
  frames : ∀ {n}, LeadsTo m n → ∀ keys, (n.frame keys).2 ≠ .error .outOfRange
  outputs : ∀ {n last keys}, LeadsTo m n → n.frame keys = (last, .ok ()) →
    last.picture? ≠ none ∧ last.sound? ≠ none

variable {m n : Machine} {keys : Keypad}

theorem Confined.next (h : m.Confined) (hm : m.frame keys = (n, .ok ())) : n.Confined where
  frames hn := h.frames (.next hm hn)
  outputs hn := h.outputs (.next hm hn)

theorem full_of_leadsTo (h : LeadsTo m n) (hm : m.Full) : n.Full := by
  induction h with
  | refl => exact hm
  | @next m n last keys hframe _ ih =>
    apply ih
    have := full_frame keys hm
    rwa [hframe] at this

theorem confined_of_full (hm : m.Full) : m.Confined where
  frames hn := frame_ne_outOfRange (full_of_leadsTo hn hm).five_le
  outputs {n last keys} hn hframe := by
    have hlast : last.Full := by
      have := full_frame keys (full_of_leadsTo hn hm)
      rwa [hframe] at this
    obtain ⟨picture, hp⟩ := exists_picture (picture_le_of_full hlast)
    obtain ⟨sound, ha⟩ := exists_sound (sound_le_of_full hlast)
    rw [hp, ha]
    exact ⟨nofun, nofun⟩

end ByteByteJump.Machine
