import ByteByteJump.Proofs.Machine.Footprint

/-! A small memory stands for a large one.

A machine over a small memory does what one over a longer memory would do, as long
as it does not fault: an instruction is executed only if its nine bytes and all
three of its operands are in the small memory. So whatever a run of it touches is
there, the longer memory agrees on the footprint, and the cells beyond are out of
reach (`after_of_within`). The converse fails by design: what the longer memory has
room for may be a fault of the small one. -/
namespace ByteByteJump.Machine

/-- The memory of the small machine is how that of the big one begins, and both stand
at the same instruction. -/
structure Within (small big : Machine) : Prop where
  size : small.memory.size ≤ big.memory.size
  pc : big.pc = small.pc
  cells : ∀ k < small.memory.size, big.memory.cell? k = small.memory.cell? k

/-- The cells that the small machine lacks are as they were. -/
def Untouched (small big later : Machine) : Prop :=
  ∀ k, small.memory.size ≤ k → later.memory.cell? k = big.memory.cell? k

variable {small big last : Machine} {keys : Keypad}

/-! ### Runs -/

theorem Within.agreesOn (h : Within small big) :
    AgreesOn {c | c < small.memory.size} small big :=
  ⟨h.size, h.pc, h.cells⟩

/-- **A run of the small machine is a run of the big one**, instruction by instruction. -/
theorem after_of_within {k : Nat} (h : Within small big) (hk : after k small = .ok last) :
    ∃ reached, after k big = .ok reached ∧ (trace k big).1 = (trace k small).1 ∧
      Within last reached ∧ Untouched small big reached := by
  obtain ⟨reached, hreached, hrecords, hagree⟩ :=
    after_of_agreesOn h.agreesOn hk fun c hc => lt_size_of_touched hk (.inl hc)
  refine ⟨reached, hreached, hrecords, ⟨hagree.size, hagree.pc, fun c hc => ?_⟩, fun c hc => ?_⟩
  · rw [size_of_after hk] at hc
    exact hagree.cells c (.inl hc)
  · refine cell?_after_of_same_records hreached hrecords fun hwritten => ?_
    exact absurd (lt_size_of_touched hk (.inr hwritten)) (Nat.not_lt.2 hc)

/-- Where the big machine faults, the small one has faulted by then. -/
theorem fault_of_within {k : Nat} {f : Fault} (h : Within small big) (hk : after k big = .ok last)
    (hf : last.step = .error f) :
    ∃ j prior g, j ≤ k ∧ after j small = .ok prior ∧ prior.step = .error g := by
  rcases after_or_fault (k + 1) small with ⟨later, hlater⟩ | ⟨j, prior, g, hj, hprior, hg⟩
  · obtain ⟨reached, hend, -⟩ := after_of_within h hlater
    obtain ⟨prior, hprior, hstep⟩ := after_succ_eq_ok_iff_last.1 hend
    cases hk.symm.trans hprior
    cases hf.symm.trans hstep
  · exact ⟨j, prior, g, Nat.le_of_lt_succ hj, hprior, hg⟩

/-! ### Frames -/

/-- With room for the header in the small memory, both machines start a frame alike. -/
theorem start_of_within (h : Within small big) (h5 : 5 ≤ small.memory.size) :
    Within (small.start keys) (big.start keys) := by
  have hsmall : 2 ≤ small.memory.size := by omega
  have hbig : 2 ≤ big.memory.size := Nat.le_trans hsmall h.size
  refine ⟨by simpa using h.size, pc_start_congr hbig hsmall fun k _ hk => h.cells k (by omega), ?_⟩
  intro k hk
  rw [size_start] at hk
  rw [cell?_start hsmall, cell?_start hbig, h.cells k hk]

theorem frame_of_within (h : Within small big) (h5 : 5 ≤ small.memory.size)
    (hframe : small.frame keys = (last, .ok ())) :
    ∃ reached, big.frame keys = (reached, .ok ()) ∧ reached.executed = last.executed ∧ Within last reached ∧
      Untouched small big reached := by
  have hbig5 : 5 ≤ big.memory.size := Nat.le_trans h5 h.size
  rcases frame_cases h5 keys with ⟨n, hn, hsmall⟩ | ⟨k, prior, f, _, _, _, hsmall⟩
  · cases hframe.symm.trans hsmall
    obtain ⟨reached, hend, -, hwithin, hrest⟩ := after_of_within (start_of_within h h5) hn
    refine ⟨_, frame_of_after hbig5 hend, rfl, ⟨hwithin.size, hwithin.pc, hwithin.cells⟩, ?_⟩
    intro k hk
    have hstart : (big.start keys).memory.cell? k = big.memory.cell? k :=
      cell?_start_of_two_le (by omega) (by omega)
    rw [← hstart]
    exact hrest k (by rwa [size_start])
  · cases hframe.symm.trans hsmall

/-- **A small memory is a faithful stand-in for a larger one.** Whatever the small machine
does without a fault, the big one does: the same instructions at the same places write
the same bytes, the cells of the small memory stay alike and the others stay as they
were. So the big machine faults no earlier, and a frame that the small one completes is
one that it completes too. -/
theorem small_memory_is_faithful (h : Within small big) :
    (∀ k last, after k small = .ok last →
      ∃ reached, after k big = .ok reached ∧
        (trace k small).1.length = k ∧ (trace k big).1 = (trace k small).1 ∧
        reached.pc = last.pc ∧
        (∀ c < small.memory.size, reached.memory.cell? c = last.memory.cell? c) ∧
        ∀ c, small.memory.size ≤ c → reached.memory.cell? c = big.memory.cell? c) ∧
    (∀ k last f, after k big = .ok last → last.step = .error f →
      ∃ j prior g, j ≤ k ∧ after j small = .ok prior ∧ prior.step = .error g) ∧
    (5 ≤ small.memory.size → ∀ keys last, small.frame keys = (last, .ok ()) →
      ∃ reached, big.frame keys = (reached, .ok ()) ∧
        reached.pc = last.pc ∧ reached.executed = last.executed ∧
        (∀ c < small.memory.size, reached.memory.cell? c = last.memory.cell? c) ∧
        ∀ c, small.memory.size ≤ c → reached.memory.cell? c = big.memory.cell? c) := by
  refine ⟨fun k last hk => ?_, fun k last f => fault_of_within h, fun h5 keys last hframe => ?_⟩
  · obtain ⟨reached, hend, hrecords, hwithin, hrest⟩ := after_of_within h hk
    refine ⟨reached, hend, length_records hk, hrecords, hwithin.pc, ?_, hrest⟩
    rw [← size_of_after hk]
    exact hwithin.cells
  · obtain ⟨reached, hend, hexecuted, hwithin, hrest⟩ := frame_of_within h h5 hframe
    have hsize : last.memory.size = small.memory.size := by
      have := size_frame keys small
      rwa [hframe] at this
    refine ⟨reached, hend, hwithin.pc, hexecuted, ?_, hrest⟩
    rw [← hsize]
    exact hwithin.cells

/-- Room for two instructions: the first puts byte 17 over a byte of its own source, the
second waits. -/
def snug : Machine := ⟨⟨⟨#[0, 0, 17, 0, 0, 2, 0, 0, 9, 0, 0, 9, 0, 0, 9, 0, 0, 9]⟩⟩, 0, 0⟩

/-- The same bytes and three more. -/
def spacious : Machine :=
  ⟨⟨⟨#[0, 0, 17, 0, 0, 2, 0, 0, 9, 0, 0, 9, 0, 0, 9, 0, 0, 9, 255, 254, 253]⟩⟩, 0, 7⟩

/-- Three instructions of `snug`, the first of which writes over itself, seen in `spacious`. -/
theorem snug_stands_for_spacious :
    Within snug spacious ∧
      ∃ reached, after 3 spacious = .ok reached ∧ (trace 3 spacious).1 = (trace 3 snug).1 ∧
        reached.pc = 9 ∧ reached.memory.cell? 2 = some 9 ∧ reached.memory.cell? 18 = some 255 := by
  have hwithin : Within snug spacious := ⟨by decide, rfl, by decide⟩
  obtain ⟨reached, hreached, -, hrecords, hpc, hcells, hrest⟩ :=
    (small_memory_is_faithful hwithin).1 3 _ rfl
  exact ⟨hwithin, reached, hreached, hrecords, hpc, hcells 2 (by decide), hrest 18 (by decide)⟩

end ByteByteJump.Machine
