import ByteByteJump.Instruction

/-! Nine bytes and three operands, both ways.

A stream of operands is known from the list of those that it still holds (`pending`):
taking one gives the head and leaves the tail, so any number of takes is a drop, and
decoding fills up with zeros (`operands_ofStream_skip`). Bytes go through an instruction
unchanged, while of an operand only the low 24 bits go through bytes; the two are inverse
to each other where the operands are addresses of three bytes (`decode_encode_eq_self_iff`).

A stream forgets the bytes it has read and cannot tell whether one beyond the nine was ever
looked for. A `Cursor` keeps all nine and a place among them, and has no outcome if it reads
elsewhere; it always has one, and it is the stream's (`skip?_start`). -/
namespace ByteByteJump

/-- Three bytes hold an address if it has no more than 24 bits. -/
theorem Address.ofBytes_bytes_eq_self_iff (a : Address) :
    ofBytes (high a) (middle a) (low a) = a ↔ a.toNat < reach := by
  rw [← UInt32.toNat_inj, toNat_ofBytes_bytes]
  exact Nat.mod_eq_iff_lt (by decide)

/-! ### Streams -/

namespace OperandStream

/-- The operands that a list of bytes spells, as far as there are three bytes for one. -/
def spelledBy : List UInt8 → List Address
  | high :: middle :: low :: rest => .ofBytes high middle low :: spelledBy rest
  | _ => []

/-- The operands that a stream still holds. -/
def pending (s : OperandStream) : List Address := spelledBy s.bytes

variable (s : OperandStream)

theorem next_fst : s.next.1 = s.pending.head? := by
  obtain ⟨_ | ⟨high, _ | ⟨middle, _ | ⟨low, rest⟩⟩⟩⟩ := s <;> rfl

theorem pending_next : s.next.2.pending = s.pending.tail := by
  obtain ⟨_ | ⟨high, _ | ⟨middle, _ | ⟨low, rest⟩⟩⟩⟩ := s <;> rfl

theorem pending_skip (k : Nat) : (skip k s).pending = s.pending.drop k := by
  induction k generalizing s with
  | zero => rfl
  | succ k ih => rw [skip, ih, pending_next, List.drop_tail]

/-- What a number of takes gives: each operand once, and then nothing. -/
theorem take_eq (n : Nat) : take n s = (List.range n).map (s.pending[·]?) := by
  induction n generalizing s with
  | zero => rfl
  | succ n ih =>
    rw [take, next_fst, ih, pending_next, List.range_succ_eq_map, List.map_cons, List.map_map,
      List.head?_eq_getElem?]
    simp only [List.getElem?_tail, Function.comp_def, Nat.succ_eq_add_one]

end OperandStream

namespace Instruction

open OperandStream (pending skip take)

theorem ofStream_eq (s : OperandStream) :
    ofStream s = ⟨s.pending[0]?.getD 0, s.pending[1]?.getD 0, s.pending[2]?.getD 0⟩ := by
  simp only [ofStream, OperandStream.next_fst, OperandStream.pending_next,
    List.head?_eq_getElem?, List.getElem?_tail, Nat.zero_add]

/-! ### Nine bytes -/

theorem eq_bytes (b : Vector UInt8 9) :
    b = #v[b[0], b[1], b[2], b[3], b[4], b[5], b[6], b[7], b[8]] := by
  obtain ⟨⟨bytes⟩, hsize⟩ := b
  match bytes, hsize with
  | [_, _, _, _, _, _, _, _, _], _ => rfl

/-- The numbers that nine bytes spell, three bytes each, most significant first. -/
def numbers (b : Vector UInt8 9) : List Nat :=
  [b[0].toNat * 65536 + b[1].toNat * 256 + b[2].toNat,
    b[3].toNat * 65536 + b[4].toNat * 256 + b[5].toNat,
    b[6].toNat * 65536 + b[7].toNat * 256 + b[8].toNat]

theorem decode_eq (b : Vector UInt8 9) :
    decode b = ⟨.ofBytes b[0] b[1] b[2], .ofBytes b[3] b[4] b[5], .ofBytes b[6] b[7] b[8]⟩ := by
  rw [eq_bytes b]
  rfl

theorem map_toNat_pending (b : Vector UInt8 9) :
    (pending (.ofBytes b)).map UInt32.toNat = numbers b := by
  rw [eq_bytes b]
  simp only [numbers, ← Address.toNat_ofBytes]
  rfl

/-- What is taken after `k` operands were: the others, and then nothing. -/
theorem map_take_skip (b : Vector UInt8 9) (k n : Nat) :
    (take n (skip k (.ofBytes b))).map (·.map UInt32.toNat) =
      (List.range n).map fun j => (numbers b)[k + j]? := by
  rw [OperandStream.take_eq, OperandStream.pending_skip, List.map_map]
  refine List.map_congr_left fun j _ => ?_
  rw [Function.comp_apply, List.getElem?_drop, ← List.getElem?_map, map_toNat_pending]

/-- Decoding after `k` operands were taken: the others, and zeros for the taken ones. -/
theorem operands_ofStream_skip (b : Vector UInt8 9) (k : Nat) :
    (ofStream (skip k (.ofBytes b))).operands.map UInt32.toNat =
      (numbers b).drop k ++ List.replicate (min k 3) 0 := by
  have hnumber (j : Nat) : ((pending (.ofBytes b))[j]?.getD 0).toNat = (numbers b)[j]?.getD 0 := by
    rw [← map_toNat_pending, List.getElem?_map]
    cases (pending (.ofBytes b))[j]? <;> rfl
  simp only [ofStream_eq, OperandStream.pending_skip, List.getElem?_drop, operands, List.map_cons,
    List.map_nil, hnumber]
  match k with
  | 0 => rfl
  | 1 => rfl
  | 2 => rfl
  | k + 3 => simp [numbers]

/-! ### Both ways -/

theorem toList_encode (i : Instruction) :
    i.encode.toList = [i.source.high, i.source.middle, i.source.low,
      i.target.high, i.target.middle, i.target.low, i.next.high, i.next.middle, i.next.low] := rfl

theorem encode_decode (b : Vector UInt8 9) : (decode b).encode = b := by
  apply Vector.toList_inj.1
  rw [toList_encode, decode_eq]
  simp only [Address.high_ofBytes, Address.middle_ofBytes, Address.low_ofBytes]
  exact (congrArg Vector.toList (eq_bytes b)).symm

theorem lt_of_mem_operands_decode (b : Vector UInt8 9) {a : Address}
    (ha : a ∈ (decode b).operands) : a.toNat < Address.reach := by
  rw [decode_eq] at ha
  simp only [operands, List.mem_cons, List.not_mem_nil, or_false] at ha
  rcases ha with rfl | rfl | rfl <;> exact Address.ofBytes_lt _ _ _

theorem operands_decode_encode (i : Instruction) :
    (decode i.encode).operands.map UInt32.toNat = i.operands.map (·.toNat % Address.reach) := by
  simp only [encode, decode_mk, operands, List.map_cons, List.map_nil, Address.toNat_ofBytes_bytes]

theorem decode_encode_eq_self_iff (i : Instruction) :
    decode i.encode = i ↔ ∀ a ∈ i.operands, a.toNat < Address.reach := by
  obtain ⟨source, target, next⟩ := i
  simp only [encode, decode_mk, mk.injEq, Address.ofBytes_bytes_eq_self_iff, operands,
    List.forall_mem_cons, List.not_mem_nil, false_imp_iff, implies_true, and_true]

end Instruction

/-! ### Reading in place -/

/-- Nine bytes, and the place among them where the next operand starts. -/
structure Cursor where
  bytes : Vector UInt8 9
  place : Nat
deriving DecidableEq, Repr

namespace Cursor

open OperandStream (skip)

def start (b : Vector UInt8 9) : Cursor := ⟨b, 0⟩

/-- The bytes from the place on. -/
def rest (c : Cursor) : OperandStream := ⟨c.bytes.toList.drop c.place⟩

/-- The address that the three bytes at the place spell, if all of them are among the nine. -/
def address? (c : Cursor) : Option Address :=
  match c.bytes[c.place]?, c.bytes[c.place + 1]?, c.bytes[c.place + 2]? with
  | some high, some middle, some low => some (.ofBytes high middle low)
  | _, _, _ => none

/-- Takes one operand, or nothing at the end of the bytes. There is no outcome if a byte
beyond them is read. -/
def next? (c : Cursor) : Option (Option Address × Cursor) :=
  if Instruction.width ≤ c.place then some (none, c)
  else c.address?.map fun a => (some a, ⟨c.bytes, c.place + 3⟩)

/-- Takes `n` operands and forgets them. -/
def skip? : Nat → Cursor → Option Cursor
  | 0, c => some c
  | n + 1, c => c.next?.bind fun r => skip? n r.2

/-- The cursor after `k` takes, if reading stops at the end. -/
def taken (b : Vector UInt8 9) (k : Nat) : Cursor := ⟨b, 3 * min k 3⟩

theorem next?_taken (b : Vector UInt8 9) (k : Nat) :
    (taken b k).next? = some ((taken b k).rest.next.1, taken b (k + 1)) ∧
      (taken b (k + 1)).rest = (taken b k).rest.next.2 := by
  rw [Instruction.eq_bytes b]
  match k with
  | 0 => exact ⟨rfl, rfl⟩
  | 1 => exact ⟨rfl, rfl⟩
  | 2 => exact ⟨rfl, rfl⟩
  | k + 3 =>
    -- The end was reached at the third take, and no place moves after that.
    have hend (j : Nat) : min (j + 3) 3 = 3 := Nat.min_eq_right (Nat.le_add_left 3 j)
    simp only [taken, hend, Nat.add_right_comm k 3 1]
    exact ⟨rfl, rfl⟩

/-- Reading in place never leaves the nine bytes, and reads what a stream of them holds. -/
theorem skip?_taken (b : Vector UInt8 9) (j k : Nat) :
    skip? k (taken b j) = some (taken b (j + k)) ∧
      (taken b (j + k)).rest = skip k (taken b j).rest := by
  induction k generalizing j with
  | zero => exact ⟨rfl, rfl⟩
  | succ k ih =>
    obtain ⟨hnext, hrest⟩ := next?_taken b j
    obtain ⟨hskip, hlast⟩ := ih (j + 1)
    rw [Nat.add_assoc, Nat.add_comm 1 k] at hskip hlast
    refine ⟨?_, ?_⟩
    · rw [skip?, hnext, Option.bind_some, hskip]
    · rw [hlast, hrest, skip]

theorem skip?_start (b : Vector UInt8 9) (k : Nat) :
    skip? k (start b) = some (taken b k) ∧ (taken b k).rest = skip k (.ofBytes b) := by
  have h := skip?_taken b 0 k
  rw [Nat.zero_add] at h
  exact h

end Cursor

/-- **Instructions and nine bytes are two forms of one thing.** Bytes decode to three
operands of 24 bits and encode to themselves again; operands come back from bytes modulo
`Address.reach`, hence unchanged exactly if they have 24 bits. Whatever number of operands was
taken from nine bytes before, further takes give the groups of three bytes that are left,
as big-endian numbers in order, and then nothing for ever; decoding gives the same with a
zero for each operand that was taken. Reading the bytes by their places does this without a
place outside the nine. -/
theorem Instruction.codec_exact :
    (∀ b : Vector UInt8 9,
      (decode b).encode = b ∧ ∀ a ∈ (decode b).operands, a.toNat < Address.reach) ∧
    (∀ i : Instruction,
      (decode i.encode).operands.map UInt32.toNat = i.operands.map (·.toNat % Address.reach) ∧
      (decode i.encode = i ↔ ∀ a ∈ i.operands, a.toNat < Address.reach)) ∧
    ∀ (b : Vector UInt8 9) (k : Nat),
      (∀ n, (OperandStream.take n (.skip k (.ofBytes b))).map (·.map UInt32.toNat) =
        (List.range n).map fun j => (numbers b)[k + j]?) ∧
      (ofStream (.skip k (.ofBytes b))).operands.map UInt32.toNat =
        (numbers b).drop k ++ List.replicate (min k 3) 0 ∧
      ∃ c, Cursor.skip? k (.start b) = some c ∧ c.rest = .skip k (.ofBytes b) ∧
        c.next?.map (·.1) = some (OperandStream.skip k (.ofBytes b)).next.1 := by
  refine ⟨fun b => ⟨encode_decode b, fun a => lt_of_mem_operands_decode b⟩,
    fun i => ⟨operands_decode_encode i, decode_encode_eq_self_iff i⟩,
    fun b k => ⟨map_take_skip b k, operands_ofStream_skip b k, Cursor.taken b k, ?_⟩⟩
  obtain ⟨hskip, hrest⟩ := Cursor.skip?_start b k
  refine ⟨hskip, hrest, ?_⟩
  rw [(Cursor.next?_taken b k).1, ← hrest]
  rfl

end ByteByteJump
