import ByteByteJump.Proofs.Memory.Cell

/-! Bytes written in a row.

`Spliced` is a memory with some bytes in the place of those from a cell on, and nothing
else changed. What `write` leaves is one, with as many of its bytes as there are cells for
them (`spliced_write`); it tells that all were written exactly if there was a cell for each
(`write_snd_iff`).

An address is a word of 32 bits and the next one may be 0. Whether a write comes round
does not show in what it leaves, so `sought` also lists the addresses that it asks for.
They are numbers in a row (`map_sought`): in a memory of less than `2 ^ 32` bytes the first
address without a byte comes before the last that a word can hold. -/
namespace ByteByteJump.Memory

/-- `n` is `m` with the bytes `vs` from cell `k` on. -/
structure Spliced (m : Memory) (k : Nat) (vs : List UInt8) (n : Memory) : Prop where
  size : n.size = m.size
  written : ∀ j < vs.length, n.cell? (k + j) = vs[j]?
  kept : ∀ c, c < k ∨ k + vs.length ≤ c → n.cell? c = m.cell? c

variable {m n : Memory} {a : Address} {k : Nat} {v : UInt8} {vs : List UInt8}

theorem Spliced.nil (m : Memory) (k : Nat) : Spliced m k [] m :=
  ⟨rfl, fun _ hj => absurd hj (Nat.not_lt_zero _), fun _ _ => rfl⟩

/-- One byte more, before the others. -/
theorem Spliced.cons (ha : a.toNat < m.size) (h : Spliced (m.set a v) (a.toNat + 1) vs n) :
    Spliced m a.toNat (v :: vs) n := by
  refine ⟨h.size.trans (size_set m a v), fun j hj => ?_, fun c hc => ?_⟩
  · cases j with
    | zero =>
      rw [Nat.add_zero, h.kept a.toNat (.inl (Nat.lt_succ_self _)), cell?_set a v ha, if_pos rfl]
      rfl
    | succ j =>
      have hplace : a.toNat + (j + 1) = a.toNat + 1 + j := by omega
      rw [hplace, h.written j (Nat.lt_of_succ_lt_succ hj)]
      rfl
  · rw [List.length_cons] at hc
    have hout : c < a.toNat + 1 ∨ a.toNat + 1 + vs.length ≤ c := by omega
    rw [h.kept c hout, cell?_set a v ha, if_neg (by omega)]

theorem Spliced.slice?_eq (h : Spliced m k vs n) (hfits : k + vs.length ≤ m.size) :
    n.slice? k vs.length = some ⟨vs.toArray⟩ := by
  rw [slice?_eq_some_iff]
  refine ⟨h.size ▸ hfits, by simp [ByteArray.size], fun j hj => ?_⟩
  have hwritten : n.bytes.data[k + j]? = vs[j]? := h.written j hj
  rw [hwritten, List.getElem?_toArray]

/-! ### What a write leaves -/

/-- The next address is the next number, as long as the memory has fewer bytes than there
are words. -/
theorem toNat_next (hsize : m.size < UInt32.size) (ha : a.toNat < m.size) :
    (a + 1).toNat = a.toNat + 1 := by
  rw [UInt32.toNat_add, UInt32.toNat_one]
  exact Nat.mod_eq_of_lt (Nat.lt_of_le_of_lt ha hsize)

theorem spliced_write (hsize : m.size < UInt32.size) (a : Address) (vs : List UInt8) :
    Spliced m a.toNat (vs.take (m.size - a.toNat)) (m.write a vs).1 := by
  induction vs generalizing m a with
  | nil =>
    rw [List.take_nil]
    exact .nil m a.toNat
  | cons v vs ih =>
    unfold write
    by_cases ha : a.toNat < m.size
    · rw [if_pos ha]
      have hrest := ih (m := m.set a v) (by rwa [size_set]) (a + 1)
      rw [size_set, toNat_next hsize ha] at hrest
      -- The first byte takes one of the places up to the end, the others the rest.
      have hroom : m.size - a.toNat = m.size - (a.toNat + 1) + 1 := by omega
      rw [hroom, List.take_succ_cons]
      exact hrest.cons ha
    · rw [if_neg ha, Nat.sub_eq_zero_of_le (Nat.le_of_not_lt ha), List.take_zero]
      exact .nil m a.toNat

theorem write_snd_iff (hsize : m.size < UInt32.size) (a : Address) (vs : List UInt8) :
    (m.write a vs).2 = true ↔ vs = [] ∨ a.toNat + vs.length ≤ m.size := by
  induction vs generalizing m a with
  | nil => simp [write]
  | cons v vs ih =>
    unfold write
    rw [List.length_cons]
    by_cases ha : a.toNat < m.size
    · rw [if_pos ha, ih (by rwa [size_set]) (a + 1), size_set, toNat_next hsize ha]
      simp only [List.cons_ne_nil, false_or]
      constructor
      · rintro (rfl | h)
        · exact ha
        · omega
      · intro h
        exact .inr (by omega)
    · rw [if_neg ha]
      simp only [Bool.false_eq_true, List.cons_ne_nil, false_or, false_iff]
      omega

/-! ### The addresses it asks for -/

/-- `write`, with the addresses that it asks for in front. -/
def sought (m : Memory) (a : Address) : List UInt8 → List Address × Memory × Bool
  | [] => ([], m, true)
  | v :: vs =>
    if a.toNat < m.size then
      let (rest, r) := (m.set a v).sought (a + 1) vs
      (a :: rest, r)
    else ([a], m, false)

theorem sought_snd (m : Memory) (a : Address) (vs : List UInt8) :
    (m.sought a vs).2 = m.write a vs := by
  induction vs generalizing m a with
  | nil => rfl
  | cons v vs ih =>
    unfold sought write
    split
    · exact ih (m.set a v) (a + 1)
    · rfl

theorem map_sought (hsize : m.size < UInt32.size) (a : Address) (vs : List UInt8) :
    (m.sought a vs).1.map UInt32.toNat =
      List.range' a.toNat (min vs.length (m.size - a.toNat + 1)) := by
  induction vs generalizing m a with
  | nil => simp [sought]
  | cons v vs ih =>
    unfold sought
    rw [List.length_cons]
    by_cases ha : a.toNat < m.size
    · rw [if_pos ha]
      have hrest := ih (m := m.set a v) (by rwa [size_set]) (a + 1)
      rw [size_set, toNat_next hsize ha] at hrest
      have hcount : min (vs.length + 1) (m.size - a.toNat + 1) =
          min vs.length (m.size - (a.toNat + 1) + 1) + 1 := by omega
      rw [hcount, List.range'_succ, ← hrest]
      rfl
    · have hcount : min (vs.length + 1) (m.size - a.toNat + 1) = 1 := by omega
      rw [if_neg ha, hcount]
      rfl

end ByteByteJump.Memory
