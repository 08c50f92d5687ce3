import Mathlib.Data.Set.Insert
import ByteByteJump.Proofs.Machine.Provenance

/-! What a run depends on.

The footprint of a run is what its instructions read: their own nine cells and the
cells of their sources. On a machine that holds the same in these cells the run is
the same, whatever the rest of the memory holds (`after_of_agreesOn`). The bytes an
instruction writes may be code that a later one is fetched from, so the cells on
which the two machines agree have to grow on the way: each target joins them as it
is written. -/
namespace ByteByteJump.Machine

variable {m n last : Machine} {i : Instruction} {A B : Set Nat}

/-- The cells that an executed instruction was fetched from, and the cell it took its
byte from. -/
def Record.reads (r : Record) : List Nat :=
  r.instruction.source.toNat :: (List.range Instruction.width).map (r.pc.toNat + ·)

/-- The cells that `k` instructions read. -/
def footprint (k : Nat) (m : Machine) : List Nat := (trace k m).1.flatMap Record.reads

theorem mem_footprint_succ (k : Nat) (h : m.fetch = .ok i) {c : Nat} :
    c ∈ footprint (k + 1) m ↔
      c = i.source.toNat ∨ (∃ j < 9, m.pc.toNat + j = c) ∨ c ∈ footprint k (m.perform i) := by
  rw [footprint, records_succ k h, List.flatMap_cons, List.mem_append, footprint, Record.reads,
    List.mem_cons, List.mem_map, or_assoc]
  simp only [List.mem_range, Instruction.width]

/-- What a run touches is there. -/
theorem lt_size_of_touched {k : Nat} (h : after k m = .ok last) {c : Nat}
    (hc : c ∈ footprint k m ∨ c ∈ targets k m) : c < m.memory.size := by
  induction k generalizing m with
  | zero => exact absurd hc (by simp [footprint, targets, trace])
  | succ k ih =>
    obtain ⟨next, hnext, hlast⟩ := after_succ_eq_ok_iff.1 h
    obtain ⟨i, hi, rfl⟩ := step_eq_ok_iff.1 hnext
    have hlater (h : c ∈ footprint k (m.perform i) ∨ c ∈ targets k (m.perform i)) :
        c < m.memory.size := by
      simpa using ih hlast h
    rw [mem_footprint_succ k hi, targets_succ k hi, List.mem_cons] at hc
    rcases hc with (rfl | ⟨j, hj, rfl⟩ | hread) | rfl | hwritten
    · exact source_lt_of_fetch hi
    · have := room_of_fetch hi
      omega
    · exact hlater (.inl hread)
    · exact target_lt_of_fetch hi
    · exact hlater (.inr hwritten)

/-- Both machines stand at the same instruction, every cell of the first is there in the
second, and on some cells they hold the same. -/
structure AgreesOn (A : Set Nat) (m n : Machine) : Prop where
  size : m.memory.size ≤ n.memory.size
  pc : n.pc = m.pc
  cells : ∀ c ∈ A, n.memory.cell? c = m.memory.cell? c

theorem AgreesOn.mono (h : AgreesOn A m n) (hsub : B ⊆ A) : AgreesOn B m n :=
  ⟨h.size, h.pc, fun c hc => h.cells c (hsub hc)⟩

/-! ### One instruction -/

theorem fetch_of_agreesOn (h : AgreesOn A m n) (hi : m.fetch = .ok i)
    (hcode : ∀ j < 9, m.pc.toNat + j ∈ A) : n.fetch = .ok i := by
  obtain ⟨hinstruction, hoperands⟩ := fetch_eq_ok_iff.1 hi
  refine fetch_eq_ok_iff.2 ⟨?_, fun a ha => Nat.lt_of_lt_of_le (hoperands a ha) h.size⟩
  rw [h.pc, ← hinstruction]
  exact Memory.instruction?_congr fun j hj => h.cells _ (hcode j hj)

/-- The target of an instruction joins the cells on which the machines agree. -/
theorem perform_of_agreesOn (h : AgreesOn A m n) (hi : m.fetch = .ok i) (hn : n.fetch = .ok i)
    (hsource : i.source.toNat ∈ A) :
    AgreesOn (insert i.target.toNat A) (m.perform i) (n.perform i) := by
  refine ⟨by simpa using h.size, rfl, fun c hc => ?_⟩
  rw [cell?_perform hi, cell?_perform hn]
  split
  next => exact h.cells _ hsource
  next hne => exact h.cells c (hc.resolve_left hne)

theorem written_of_agreesOn (h : AgreesOn (insert i.target.toNat A) (m.perform i) (n.perform i)) :
    (n.perform i).memory.get? i.target = (m.perform i).memory.get? i.target := by
  rw [Memory.get?_eq_cell?, Memory.get?_eq_cell?]
  exact h.cells _ (Set.mem_insert _ _)

/-! ### Runs -/

/-- **A run is the same on every machine that agrees on its footprint.** -/
theorem after_of_agreesOn {k : Nat} (h : AgreesOn A m n) (hk : after k m = .ok last)
    (hA : ∀ c ∈ footprint k m, c ∈ A) :
    ∃ reached, after k n = .ok reached ∧ (trace k n).1 = (trace k m).1 ∧
      AgreesOn {c | c ∈ A ∨ c ∈ targets k m} last reached := by
  induction k generalizing A m n with
  | zero =>
    cases hk
    refine ⟨n, rfl, rfl, h.mono fun c hc => hc.resolve_right List.not_mem_nil⟩
  | succ k ih =>
    obtain ⟨next, hnext, hlast⟩ := after_succ_eq_ok_iff.1 hk
    obtain ⟨i, hi, rfl⟩ := step_eq_ok_iff.1 hnext
    have hreads {c : Nat} := mem_footprint_succ k hi (c := c)
    have hn : n.fetch = .ok i :=
      fetch_of_agreesOn h hi fun j hj => hA _ (hreads.2 (.inr (.inl ⟨j, hj, rfl⟩)))
    have hperform := perform_of_agreesOn h hi hn (hA _ (hreads.2 (.inl rfl)))
    obtain ⟨reached, hreached, hrecords, hagree⟩ := ih hperform hlast fun c hc =>
      Set.mem_insert_of_mem _ (hA c (hreads.2 (.inr (.inr hc))))
    refine ⟨reached, after_succ_eq_ok_iff.2 ⟨_, step_eq_ok_iff.2 ⟨i, hn, rfl⟩, hreached⟩, ?_, ?_⟩
    · rw [records_succ k hn, records_succ k hi, written_of_agreesOn hperform, hrecords, h.pc]
    · refine hagree.mono fun c hc => ?_
      rw [Set.mem_ofPred_eq, targets_succ k hi, List.mem_cons] at hc
      rcases hc with hold | rfl | hlater
      · exact .inl (Set.mem_insert_of_mem _ hold)
      · exact .inl (Set.mem_insert _ _)
      · exact .inr hlater

/-- What a run leaves of the cells that it does not write. -/
theorem cell?_after_of_not_target {k : Nat} (h : after k m = .ok last) {c : Nat}
    (hc : c ∉ targets k m) : last.memory.cell? c = m.memory.cell? c := by
  obtain ⟨p, hcopied, hkept⟩ := after_copies h
  rw [hcopied c, hkept c hc]

theorem cell?_after_of_same_records {k : Nat} (h : after k n = .ok last)
    (hrecords : (trace k n).1 = (trace k m).1) {c : Nat} (hc : c ∉ targets k m) :
    last.memory.cell? c = n.memory.cell? c := by
  refine cell?_after_of_not_target h ?_
  rwa [targets, hrecords]

/-- **A run depends on its footprint alone.** Take any cells among which are all that the
run reads. In a memory of the same size that holds the same in them, and from the same
instruction, as many instructions go well, and they are the same ones. The memories
then agree on these cells and on all that were written; where nothing was written, the
other memory is as it was. -/
theorem run_depends_on_footprint {k : Nat} (hk : after k m = .ok last)
    (hA : ∀ c ∈ footprint k m, c ∈ A) (hsize : n.memory.size = m.memory.size) (hpc : n.pc = m.pc)
    (hcells : ∀ c ∈ A, n.memory.cell? c = m.memory.cell? c) :
    ∃ reached, after k n = .ok reached ∧
      (trace k m).1.length = k ∧ (trace k n).1 = (trace k m).1 ∧ reached.pc = last.pc ∧
      (∀ c, c ∈ A ∨ c ∈ targets k m → reached.memory.cell? c = last.memory.cell? c) ∧
      ∀ c, c ∉ targets k m → reached.memory.cell? c = n.memory.cell? c := by
  have hagree : AgreesOn A m n := ⟨Nat.le_of_eq hsize.symm, hpc, hcells⟩
  obtain ⟨reached, hreached, hrecords, hend⟩ := after_of_agreesOn hagree hk hA
  exact ⟨reached, hreached, length_records hk, hrecords, hend.pc, hend.cells,
    fun c hc => cell?_after_of_same_records hreached hrecords hc⟩

/-- The first instruction puts byte 18 over a byte of the second's source before that one
is fetched; the second then copies byte 19 to 20, for ever. -/
def patching : Machine :=
  ⟨⟨⟨#[0, 0, 18, 0, 0, 11, 0, 0, 9, 0, 0, 4, 0, 0, 20, 0, 0, 9, 19, 7, 0, 0]⟩⟩, 0, 0⟩

/-- The same where the run of `patching` reads, and other bytes behind that. -/
def patchingElsewhere : Machine :=
  ⟨⟨⟨#[0, 0, 18, 0, 0, 11, 0, 0, 9, 0, 0, 4, 0, 0, 20, 0, 0, 9, 19, 7, 88, 99]⟩⟩, 0, 5⟩

/-- Three instructions that read the same in both: byte 20, which they write, comes to
agree, and byte 21 stays different. -/
theorem patching_repeats_elsewhere :
    ∃ last reached, after 3 patching = .ok last ∧ after 3 patchingElsewhere = .ok reached ∧
      (∀ c ∈ footprint 3 patching,
        patchingElsewhere.memory.cell? c = patching.memory.cell? c) ∧
      (trace 3 patchingElsewhere).1 = (trace 3 patching).1 ∧
      reached.memory.cell? 20 = last.memory.cell? 20 ∧
      reached.memory.cell? 21 = some 99 ∧ last.memory.cell? 21 = some 0 := by
  have hcells : ∀ c ∈ footprint 3 patching,
      patchingElsewhere.memory.cell? c = patching.memory.cell? c := by decide
  obtain ⟨last, hlast⟩ : ∃ last, after 3 patching = .ok last := ⟨_, rfl⟩
  obtain ⟨reached, hreached, -, hrecords, -, hagree, hrest⟩ :=
    run_depends_on_footprint (A := {c | c ∈ footprint 3 patching}) (n := patchingElsewhere) hlast
      (fun _ hc => hc) rfl rfl hcells
  refine ⟨last, reached, hlast, hreached, hcells, hrecords, hagree 20 (.inr (by decide)),
    hrest 21 (by decide), ?_⟩
  exact cell?_after_of_not_target hlast (by decide)

end ByteByteJump.Machine
