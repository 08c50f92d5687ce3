import Mathlib.Data.List.Perm.Subperm
import ByteByteJump.Proofs.Machine.Cell

/-! Where the bytes of a machine come from.

An instruction only copies. However a program uses its bytes meanwhile, as data, as
addresses or as code, after any number of instructions every cell holds what some
cell held before them, and a cell that none of them wrote holds its own byte
(`after_copies`). New bytes come in at the start of a frame alone, two of them: so
all that a machine holds after some frames was there before them or was a byte of
their keys (`supplied_of_frames`), and a frame changes no more cells than these two
and one for each instruction (`length_changed_frame`). -/
namespace ByteByteJump.Machine

variable {m n last : Machine} {i : Instruction} {keys : Keypad}

/-! ### Instructions -/

/-- The cells that `k` instructions write, in order. -/
def targets (k : Nat) (m : Machine) : List Nat :=
  (trace k m).1.map fun r => r.instruction.target.toNat

/-- Each cell of `n` holds what the cell that `p` gives for it holds in `m`. -/
def Copied (p : Nat → Nat) (m n : Machine) : Prop :=
  ∀ c, n.memory.cell? c = m.memory.cell? (p c)

/-- What a copied cell comes from is a cell, too. -/
theorem Copied.lt_size {p : Nat → Nat} (h : Copied p m n) {c : Nat} (hc : c < n.memory.size) :
    p c < m.memory.size := by
  rw [← Memory.isSome_cell?, ← h c]
  exact Memory.isSome_cell?.2 hc

theorem Copied.comp {p q : Nat → Nat} (h : Copied p m n) (h' : Copied q n last) :
    Copied (p ∘ q) m last :=
  fun c => (h' c).trans (h (q c))

/-- The cell from which an instruction takes the byte of a cell. -/
def takenFrom (i : Instruction) (c : Nat) : Nat :=
  if c = i.target.toNat then i.source.toNat else c

theorem copied_perform (h : m.fetch = .ok i) : Copied (takenFrom i) m (m.perform i) :=
  cell?_perform h

theorem targets_succ (k : Nat) (h : m.fetch = .ok i) :
    targets (k + 1) m = i.target.toNat :: targets k (m.perform i) := by
  rw [targets, records_succ k h, List.map_cons, targets]

theorem length_targets {k : Nat} (h : after k m = .ok last) : (targets k m).length = k := by
  rw [targets, List.length_map, length_records h]

/-- **Instructions copy.** -/
theorem after_copies {k : Nat} (h : after k m = .ok last) :
    ∃ p, Copied p m last ∧ ∀ c, c ∉ targets k m → p c = c := by
  induction k generalizing m with
  | zero =>
    cases h
    exact ⟨id, fun _ => rfl, fun _ _ => rfl⟩
  | succ k ih =>
    obtain ⟨next, hnext, hlast⟩ := after_succ_eq_ok_iff.1 h
    obtain ⟨i, hi, rfl⟩ := step_eq_ok_iff.1 hnext
    obtain ⟨p, hcopied, hkept⟩ := ih hlast
    -- Back through the later instructions, then through the first.
    refine ⟨takenFrom i ∘ p, (copied_perform hi).comp hcopied, fun c hc => ?_⟩
    rw [targets_succ k hi, List.mem_cons, not_or] at hc
    rw [Function.comp_apply, hkept c hc.2, takenFrom, if_neg hc.1]

/-! ### Frames -/

/-- A byte that `m` holds, or one of the two bytes of some keys. -/
def Supplies (m : Machine) (latched : List Keypad) (v : UInt8) : Prop :=
  (∃ c, m.memory.cell? c = some v) ∨ ∃ keys ∈ latched, v ∈ keys.bytes

theorem Supplies.mono {latched more : List Keypad} {v : UInt8} (h : m.Supplies latched v)
    (hsub : latched ⊆ more) : m.Supplies more v := by
  rcases h with hcell | ⟨keys, hkeys, hv⟩
  · exact .inl hcell
  · exact .inr ⟨keys, hsub hkeys, hv⟩

theorem supplied_of_start (h : 2 ≤ m.memory.size) {c : Nat} {v : UInt8}
    (hv : (m.start keys).memory.cell? c = some v) : m.Supplies [keys] v := by
  rw [cell?_start h] at hv
  split at hv
  · cases hv
    exact .inr ⟨keys, .head _, .tail _ (.head _)⟩
  · split at hv
    · cases hv
      exact .inr ⟨keys, .head _, .head _⟩
    · exact .inl ⟨c, hv⟩

/-- However a frame comes out, it leaves only bytes that were there or are of its keys. -/
theorem supplied_of_frame (h : 5 ≤ m.memory.size) {c : Nat} {v : UInt8}
    (hv : (m.frame keys).1.memory.cell? c = some v) : m.Supplies [keys] v := by
  obtain ⟨k, last, -, hlast, hframe⟩ := frame_eq_after h keys
  obtain ⟨p, hcopied, -⟩ := after_copies hlast
  rw [hframe] at hv
  have hstart : (m.start keys).memory.cell? (p c) = some v := (hcopied c).symm.trans hv
  exact supplied_of_start (Nat.le_trans (by decide) h) hstart

/-- The machine after frames with these keys, well or not. -/
def frames : List Keypad → Machine → Machine
  | [], m => m
  | keys :: rest, m => frames rest (m.frame keys).1

theorem supplied_of_frames {latched : List Keypad} (h : 5 ≤ m.memory.size) {c : Nat} {v : UInt8}
    (hv : (frames latched m).memory.cell? c = some v) : m.Supplies latched v := by
  induction latched generalizing m with
  | nil => exact .inl ⟨c, hv⟩
  | cons keys rest ih =>
    have h5 : 5 ≤ (m.frame keys).1.memory.size := by rwa [size_frame]
    rcases ih h5 hv with ⟨d, hd⟩ | ⟨other, hother, hbyte⟩
    · exact (supplied_of_frame h hd).mono (List.cons_subset_cons _ (List.nil_subset _))
    · exact .inr ⟨other, .tail _ hother, hbyte⟩

/-! ### What a frame changes -/

/-- The cells whose bytes differ. -/
def changed (m n : Machine) : List Nat :=
  (List.range m.memory.size).filter fun c => m.memory.cell? c ≠ n.memory.cell? c

/-- A frame changes the cells of the keys and the targets of its instructions at most. -/
theorem changed_frame_subset (h : 5 ≤ m.memory.size) (keys : Keypad) :
    ∃ k last, k ≤ frameLength ∧ after k (m.start keys) = .ok last ∧
      (m.frame keys).1.executed = k ∧
      changed m (m.frame keys).1 ⊆ 0 :: 1 :: targets k (m.start keys) := by
  obtain ⟨k, last, hk, hlast, hframe⟩ := frame_eq_after h keys
  obtain ⟨p, hcopied, hkept⟩ := after_copies hlast
  refine ⟨k, last, hk, hlast, by rw [hframe], fun c hc => ?_⟩
  have hdiffers : m.memory.cell? c ≠ (m.frame keys).1.memory.cell? c := by
    simpa using (List.mem_filter.1 hc).2
  rw [hframe] at hdiffers
  by_contra hnot
  simp only [List.mem_cons, not_or] at hnot
  apply hdiffers
  show m.memory.cell? c = last.memory.cell? c
  rw [hcopied c, hkept c hnot.2.2, cell?_start_of_two_le (by omega) (by omega)]

theorem length_changed_frame (h : 5 ≤ m.memory.size) (keys : Keypad) :
    (changed m (m.frame keys).1).length ≤ (m.frame keys).1.executed + 2 ∧
      (m.frame keys).1.executed + 2 ≤ 65538 := by
  obtain ⟨k, last, hk, hlast, hexecuted, hsubset⟩ := changed_frame_subset h keys
  have hnodup : (changed m (m.frame keys).1).Nodup := List.nodup_range.filter _
  have hle := (hnodup.subperm hsubset).length_le
  rw [List.length_cons, List.length_cons, length_targets hlast] at hle
  rw [frameLength] at hk
  omega

end ByteByteJump.Machine
