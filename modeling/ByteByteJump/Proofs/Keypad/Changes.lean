import Mathlib.Logic.Function.Basic
import ByteByteJump.Keypad.Layout
import ByteByteJump.Proofs.Machine.Cell

/-! From keys to bits in memory.

A keypad is pressed key by key, let go as a whole, or set from the keys of a keyboard that
are down. Whatever came first, a key is down if it was pressed and not all keys were let go
since (`isDown_after`). To set a keypad is to let all keys go and press those that are
listed, so that nothing is left of what it was before, nor of how the list was made
(`ofKeyboard_congr`).

A frame starts with the keys in the first two bytes of memory: key `k` is bit `7 - k % 8`
of byte `k / 8` (`cell?_start_of_key`), and keypads with the same bits have the same keys
down (`pack_eq_iff`). -/
namespace ByteByteJump.Keypad

/-! ### Keys and places -/

/-- The rows of the keypad. -/
def padRows : List (List HexKey) :=
  [[0x1, 0x2, 0x3, 0xC],
    [0x4, 0x5, 0x6, 0xD],
    [0x7, 0x8, 0x9, 0xE],
    [0xA, 0x0, 0xB, 0xF]].map (·.map HexKey.ofByte)

/-- The left ends of the rows of the keyboard. -/
def keyboardRows : List (List String) :=
  [["Key1", "Key2", "Key3", "Key4"],
    ["Q", "W", "E", "R"],
    ["A", "S", "D", "F"],
    ["Z", "X", "C", "V"]]

/-- The keys of the keyboard with those of the keypad that lie in the same place. -/
def places : List (String × HexKey) := (keyboardRows.zipWith List.zip padRows).flatten

/-- Each key of the keypad is named by a byte. -/
theorem surjective_ofByte : Function.Surjective HexKey.ofByte := by
  intro k
  have hlt : k.val < 2 ^ 8 := Nat.lt_trans k.isLt (by decide)
  refine ⟨.ofNat k, Fin.ext ?_⟩
  show (UInt8.ofNat k).toNat % 16 = k
  rw [UInt8.toNat_ofNat_of_lt' hlt, Nat.mod_eq_of_lt k.isLt]

/-- A table that lists nothing twice is looked up by its entries. -/
theorem lookup_eq_some_iff_mem {α β : Type} [BEq α] [LawfulBEq α] {table : List (α × β)}
    (h : (table.map Prod.fst).Nodup) (a : α) (b : β) :
    table.lookup a = some b ↔ (a, b) ∈ table := by
  rw [List.lookup_eq_some_iff]
  constructor
  · rintro ⟨before, later, rfl, -⟩
    simp
  · intro hmem
    obtain ⟨before, later, rfl⟩ := List.append_of_mem hmem
    refine ⟨before, later, rfl, fun entry hentry => ?_⟩
    rw [List.map_append, List.nodup_append] at h
    exact bne_iff_ne.2 fun heq => h.2.2 _ (List.mem_map_of_mem hentry) _ (by simp) heq.symm

theorem hexKey?_eq_some_iff {name : String} {k : HexKey} :
    hexKey? name = some k ↔ (name, k) ∈ places := by
  have hplaces : places = layout.map fun entry => (entry.1, HexKey.ofByte entry.2) := by decide
  have hnodup : (layout.map Prod.fst).Nodup := by decide
  rw [hexKey?, hplaces, Option.map_eq_some_iff, List.mem_map]
  constructor
  · rintro ⟨n, hn, rfl⟩
    exact ⟨(name, n), (lookup_eq_some_iff_mem hnodup name n).1 hn, rfl⟩
  · rintro ⟨⟨other, n⟩, hn, hplace⟩
    obtain ⟨rfl, rfl⟩ := Prod.mk.inj hplace
    exact ⟨n, (lookup_eq_some_iff_mem hnodup other n).2 hn, rfl⟩

/-! ### Changes -/

/-- Something that happens to a keypad. -/
inductive Change where
  /-- The key that the low four bits of a byte name is pressed. -/
  | press (n : UInt8)
  | reset
  /-- The keypad is set from the keys of the keyboard that are down. -/
  | update (names : List String)

namespace Change

/-- The key is among those that are pressed. -/
def Presses (k : HexKey) : Change → Prop
  | press n => n.toNat % 16 = k
  | reset => False
  | update names => ∃ name ∈ names, (name, k) ∈ places

/-- All keys are let go first. -/
def Clears : Change → Prop
  | press _ => False
  | reset => True
  | update _ => True

end Change

def change (p : Keypad) : Change → Keypad
  | .press n => p.press (.ofByte n)
  | .reset => released
  | .update names => ofKeyboard names

/-- The keypad after changes, one after the other. -/
def after (p : Keypad) (changes : List Change) : Keypad := changes.foldl change p

/-- The key is pressed, and later not all keys are let go. -/
def PressedLast (k : HexKey) (changes : List Change) : Prop :=
  ∃ before c later, changes = before ++ c :: later ∧ c.Presses k ∧ ∀ d ∈ later, ¬ d.Clears

variable {p q : Keypad} {k : HexKey} {c : Change} {changes : List Change}

theorem isDown_change :
    (p.change c).isDown k = true ↔ c.Presses k ∨ p.isDown k = true ∧ ¬ c.Clears := by
  cases c with
  | press n =>
    have hkey : k = HexKey.ofByte n ↔ n.toNat % 16 = k := by
      rw [eq_comm, Fin.ext_iff]
      rfl
    simp only [change, isDown_press, hkey, Change.Presses, Change.Clears, not_false_iff, and_true]
  | reset => simp [change, Change.Presses, Change.Clears]
  | update names =>
    simp only [change, isDown_ofKeyboard, hexKey?_eq_some_iff, Change.Presses, Change.Clears,
      not_true, and_false, or_false]

theorem not_pressedLast_nil : ¬ PressedLast k [] := by
  rintro ⟨before, c, later, hsplit, -⟩
  simp at hsplit

theorem pressedLast_cons_iff :
    PressedLast k (c :: changes) ↔
      PressedLast k changes ∨ c.Presses k ∧ ∀ d ∈ changes, ¬ d.Clears := by
  constructor
  · rintro ⟨before, d, later, hsplit, hpresses, hlater⟩
    rcases List.cons_eq_append_iff.1 hsplit with ⟨rfl, heq⟩ | ⟨before, rfl, rfl⟩
    · obtain ⟨rfl, rfl⟩ := List.cons.inj heq
      exact .inr ⟨hpresses, hlater⟩
    · exact .inl ⟨before, d, later, rfl, hpresses, hlater⟩
  · rintro (⟨before, d, later, rfl, hpresses, hlater⟩ | ⟨hpresses, hlater⟩)
    · exact ⟨c :: before, d, later, rfl, hpresses, hlater⟩
    · exact ⟨[], c, changes, rfl, hpresses, hlater⟩

theorem isDown_after :
    (p.after changes).isDown k = true ↔
      PressedLast k changes ∨ p.isDown k = true ∧ ∀ c ∈ changes, ¬ c.Clears := by
  induction changes generalizing p with
  | nil => simp [after, not_pressedLast_nil]
  | cons c changes ih =>
    have hrest : p.after (c :: changes) = (p.change c).after changes := rfl
    rw [hrest, ih, isDown_change, pressedLast_cons_iff, List.forall_mem_cons, or_and_right,
      or_assoc, and_assoc]

theorem ext_isDown (h : ∀ k, p.isDown k = q.isDown k) : p = q := by
  refine congrArg Keypad.mk (Vector.ext fun i hi => ?_)
  exact h ⟨i, hi⟩

/-- Only the keys that lie in a place matter, and whether they are listed. -/
theorem ofKeyboard_congr {names others : List String}
    (h : ∀ name k, (name, k) ∈ places → (name ∈ names ↔ name ∈ others)) :
    ofKeyboard names = ofKeyboard others := by
  refine ext_isDown fun k => ?_
  rw [Bool.eq_iff_iff, isDown_ofKeyboard, isDown_ofKeyboard]
  simp only [hexKey?_eq_some_iff]
  refine exists_congr fun name => and_congr_left fun hplace => ?_
  exact h name k hplace

/-! ### Bits -/

theorem pack_eq_iff : p.pack = q.pack ↔ ∀ k, p.isDown k = q.isDown k := by
  constructor
  · intro h k
    have hbits : p.bits = q.bits := congrArg UInt16.toBitVec h
    rw [← getMsbD_bits, ← getMsbD_bits, hbits]
  · intro h
    rw [ext_isDown h]

/-- Counted from the least significant, key `k` is bit `15 - k`. -/
theorem testBit_pack (p : Keypad) (k : HexKey) : p.pack.toNat.testBit (15 - k) = p.isDown k := by
  have hbit : p.pack.toNat.testBit (15 - k) = p.bits.getLsbD (15 - k) := BitVec.testBit_toNat _
  rw [hbit, ← getMsbD_bits, BitVec.getMsbD_eq_getLsbD, decide_eq_true k.isLt, Bool.true_and]

theorem testBit_high (hk : k.val < 8) :
    (p.pack >>> 8).toUInt8.toNat.testBit (7 - k) = p.isDown k := by
  have hshift : (p.pack >>> 8).toNat = p.pack.toNat >>> 8 := UInt16.toNat_shiftRight _ _
  have hsum : 8 + (7 - k.val) = 15 - k := by omega
  rw [UInt16.toNat_toUInt8, Nat.testBit_mod_two_pow, hshift, Nat.testBit_shiftRight, hsum,
    testBit_pack, decide_eq_true (by omega), Bool.true_and]

theorem testBit_low (hk : 8 ≤ k.val) : p.pack.toUInt8.toNat.testBit (15 - k) = p.isDown k := by
  rw [UInt16.toNat_toUInt8, Nat.testBit_mod_two_pow, testBit_pack, decide_eq_true (by omega),
    Bool.true_and]

/-- Key by key, the bytes that a frame starts with. -/
theorem cell?_start_of_key {m : Machine} (h : 2 ≤ m.memory.size) (p : Keypad) (k : HexKey) :
    ∃ v, (m.start p).memory.cell? (k / 8) = some v ∧ v.toNat.testBit (7 - k % 8) = p.isDown k := by
  by_cases hk : k.val < 8
  · refine ⟨(p.pack >>> 8).toUInt8, ?_, ?_⟩
    · rw [Machine.cell?_start h, Nat.div_eq_of_lt hk]
      rfl
    · rw [Nat.mod_eq_of_lt hk, testBit_high hk]
  · have hbit : 7 - k.val % 8 = 15 - k := by omega
    refine ⟨p.pack.toUInt8, ?_, ?_⟩
    · rw [Machine.cell?_start h, if_pos (by omega)]
    · rw [hbit, testBit_low (by omega)]

/-! ### All of it -/

/-- What changes of a keypad come to, and what a frame of a machine then starts with. -/
structure Followed (p : Keypad) (changes : List Change) (m : Machine) : Prop where
  /-- A byte names the key of its low four bits. -/
  named : ∀ n : UInt8, (HexKey.ofByte n).val = n.toNat % 16
  down : ∀ n : UInt8, (p.after changes).isDown (.ofByte n) = true ↔
    PressedLast (.ofByte n) changes ∨
      p.isDown (.ofByte n) = true ∧ ∀ c ∈ changes, ¬ c.Clears
  update : ∀ (q : Keypad) (names others : List String),
    (∀ name k, (name, k) ∈ places → (name ∈ names ↔ name ∈ others)) →
      (p.after changes).change (.update names) = q.change (.update others)
  pack : ∀ q : Keypad, (p.after changes).pack = q.pack ↔
    ∀ n : UInt8, (p.after changes).isDown (.ofByte n) = q.isDown (.ofByte n)
  /-- The keys are in memory before the first instruction. -/
  latched : (m.latch (p.after changes)).1.memory = (m.start (p.after changes)).memory ∧
    m.frame (p.after changes) = Machine.runFrame (m.start (p.after changes))
  bits : ∀ k : HexKey, ∃ v, (m.start (p.after changes)).memory.cell? (k / 8) = some v ∧
    ((p.after changes).isDown k = true ↔ v.toNat.testBit (7 - k % 8) = true)

/-- **Keys are down as they were changed, and programs see them so.** Whatever was done to a
keypad, a key is down if it was pressed since all were let go, or always; setting a keypad
from a keyboard depends on the listed keys alone; and a frame finds each key in its bit. -/
theorem keys_reach_memory (p : Keypad) (changes : List Change) {m : Machine}
    (h : 5 ≤ m.memory.size) : Followed p changes m where
  named _ := rfl
  down _ := isDown_after
  update _ _ _ hsame := ofKeyboard_congr hsame
  pack q := by rw [pack_eq_iff, surjective_ofByte.forall]
  latched := by
    rw [Machine.latch_eq (Nat.le_trans (by decide) h)]
    exact ⟨rfl, Machine.frame_eq_runFrame h⟩
  bits k := by
    obtain ⟨v, hv, hbit⟩ := cell?_start_of_key (Nat.le_trans (by decide) h) (p.after changes) k
    exact ⟨v, hv, by rw [hbit]⟩

/-- Key 3 is let go when the keypad is set from a keyboard; of the keys listed there one lies
in no place. -/
theorem chord_reaches_memory :
    let chord : List Change := [.update ["V", "Escape", "X", "V"], .press 0x21]
    let m := Machine.ofMemory (.blank 5)
    5 ≤ m.memory.size ∧ Followed (released.press 3) chord m ∧
      (m.start ((released.press 3).after chord)).memory.cell? 0 = some 0xC0 ∧
      (m.start ((released.press 3).after chord)).memory.cell? 1 = some 0x01 :=
  ⟨by decide, keys_reach_memory _ _ (by decide), by decide +kernel, by decide +kernel⟩

end ByteByteJump.Keypad
