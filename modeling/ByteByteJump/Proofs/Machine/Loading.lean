import ByteByteJump.Proofs.Machine.Cell

/-! Loading an image.

An image is loaded as a whole or not at all. It is not loaded if it is longer than the
memory or cannot be read, and then nothing changes. If it is, the memory is the image and
zeros (`Memory.IsImage`), which is to say that nothing of it is from before. There are
three ways to load, which part only in what else they do: one sets the program counter
back and one tells the length. A frame reads neither the program counter nor the count
that a load leaves, so for frames the three are one, and the past of the machine ends
there (`played_of_loaded`). -/
namespace ByteByteJump

namespace Memory

/-- A memory of `size` bytes that begins with an image and is zero after it. -/
structure IsImage (n : Memory) (image : ByteArray) (size : Nat) : Prop where
  fits : image.size ≤ size
  bytes : n.bytes.data.toList = image.data.toList ++ List.replicate (size - image.size) 0

variable {m n n' : Memory} {image : ByteArray}

theorem IsImage.unique {size : Nat} (h : n.IsImage image size) (h' : n'.IsImage image size) :
    n = n' :=
  congrArg Memory.mk (ByteArray.ext (Array.toList_inj.1 (h.bytes.trans h'.bytes.symm)))

theorem load?_eq_some_iff : m.load? image = some n ↔ n.IsImage image m.size := by
  unfold load?
  split
  next hfits =>
    have hbytes : (Memory.mk (image ++ zeros (m.size - image.size))).IsImage image m.size := by
      refine ⟨hfits, ?_⟩
      simp [zeros_data]
    rw [Option.some.injEq]
    exact ⟨fun h => h ▸ hbytes, fun h => hbytes.unique h⟩
  next hlong => exact iff_of_false nofun fun h => hlong h.fits

theorem load?_eq_none (h : m.size < image.size) : m.load? image = none :=
  if_neg (Nat.not_le_of_lt h)

end Memory

namespace Machine

variable {m n : Machine} {image : ByteArray}

/-! ### The three ways -/

theorem loadMemory_eq_ok_iff :
    m.loadMemory image = .ok n ↔
      n.memory.IsImage image m.memory.size ∧ n.pc = m.pc ∧ n.executed = m.executed := by
  obtain ⟨memory, pc, executed⟩ := n
  unfold loadMemory
  cases hload : m.memory.load? image with
  | none =>
    refine iff_of_false nofun fun h => ?_
    rw [Memory.load?_eq_some_iff.2 h.1] at hload
    cases hload
  | some loaded =>
    have himage := Memory.load?_eq_some_iff.1 hload
    simp only [Except.ok.injEq, mk.injEq]
    constructor
    · rintro ⟨rfl, rfl, rfl⟩
      exact ⟨himage, rfl, rfl⟩
    · rintro ⟨h, rfl, rfl⟩
      exact ⟨himage.unique h, rfl, rfl⟩

theorem load_eq_ok_iff :
    m.load image = .ok n ↔
      n.memory.IsImage image m.memory.size ∧ n.pc = 0 ∧ n.executed = m.executed := by
  have hload : m.load image = .ok n ↔ ∃ x, m.loadMemory image = .ok x ∧ x.jump 0 = n := by
    unfold load
    cases m.loadMemory image <;> simp [Except.map]
  rw [hload]
  constructor
  · rintro ⟨x, hx, rfl⟩
    obtain ⟨himage, -, hexecuted⟩ := loadMemory_eq_ok_iff.1 hx
    exact ⟨himage, rfl, hexecuted⟩
  · rintro ⟨himage, hpc, hexecuted⟩
    refine ⟨⟨n.memory, m.pc, n.executed⟩, loadMemory_eq_ok_iff.2 ⟨himage, rfl, hexecuted⟩, ?_⟩
    rw [jump, ← hpc]

theorem loadFile_eq_ok_iff {size : Nat} :
    m.loadFile (.ok image) = .ok (n, size) ↔ m.loadMemory image = .ok n ∧ size = image.size := by
  have hfile : m.loadFile (.ok image) = (m.loadMemory image).map (·, image.size) := rfl
  rw [hfile]
  cases m.loadMemory image <;> simp [Except.map, eq_comm]

theorem exists_loadMemory (h : image.size ≤ m.memory.size) : ∃ n, m.loadMemory image = .ok n := by
  refine ⟨⟨⟨image ++ Memory.zeros (m.memory.size - image.size)⟩, m.pc, m.executed⟩, ?_⟩
  rw [loadMemory, Memory.load?, if_pos h]

theorem loadMemory_of_long (h : m.memory.size < image.size) :
    m.loadMemory image = .error (.programTooLarge image.size m.memory.size) := by
  rw [loadMemory, Memory.load?_eq_none h]

/-! ### What they have in common -/

/-- An action that loads an image, in one of the three ways. -/
def Action.Loads (image : ByteArray) : Action → Prop
  | .load other => other = image
  | .loadMemory other => other = image
  | .loadFile (.ok other) => other = image
  | _ => False

variable {a b : Action}

/-- A load puts the image into the memory, and what else it does to the machine spares the
memory. -/
theorem act_loads (ha : a.Loads image) :
    ∃ also : Machine → Machine, (∀ n, (also n).memory = n.memory) ∧
      ∀ m : Machine, m.act a = match m.loadMemory image with
        | .ok n => (also n, .ok ())
        | .error failure => (m, .error (.failed failure)) := by
  cases a with
  | load other =>
    cases ha
    refine ⟨fun n => n.jump 0, fun _ => rfl, fun m => ?_⟩
    rw [act, load]
    cases m.loadMemory image <;> rfl
  | loadMemory other =>
    cases ha
    refine ⟨id, fun _ => rfl, fun m => ?_⟩
    rw [act]
    cases m.loadMemory image <;> rfl
  | loadFile file =>
    cases file with
    | error reason => cases ha
    | ok other =>
      cases ha
      refine ⟨id, fun _ => rfl, fun m => ?_⟩
      rw [act, loadFile]
      cases m.loadMemory image <;> rfl
  | _ => cases ha

theorem act_of_long (ha : a.Loads image) (h : m.memory.size < image.size) :
    m.act a = (m, .error (.failed (.programTooLarge image.size m.memory.size))) := by
  obtain ⟨also, -, hact⟩ := act_loads ha
  rw [hact, loadMemory_of_long h]

theorem act_of_fits (ha : a.Loads image) (h : image.size ≤ m.memory.size) :
    ∃ n, m.act a = (n, .ok ()) ∧ n.memory.IsImage image m.memory.size := by
  obtain ⟨also, hmemory, hact⟩ := act_loads ha
  obtain ⟨n, hn⟩ := exists_loadMemory h
  refine ⟨also n, ?_, ?_⟩
  · rw [hact, hn]
  · rw [hmemory]
    exact (loadMemory_eq_ok_iff.1 hn).1

theorem act_loads_eq_ok_iff (ha : a.Loads image) :
    (m.act a).2 = .ok () ↔ image.size ≤ m.memory.size := by
  constructor
  · intro h
    refine Nat.le_of_not_lt fun hlong => ?_
    rw [act_of_long ha hlong] at h
    cases h
  · intro h
    obtain ⟨n, hn, -⟩ := act_of_fits ha h
    rw [hn]

/-! ### Frames after a load -/

/-- How frames with these keys come out, one after the other, and the machine that each
leaves. -/
def played : List Keypad → Machine → List (Machine × Except (Stop Fault) Unit)
  | [], _ => []
  | keys :: rest, m => m.frame keys :: played rest (m.frame keys).1

theorem played_of_sameProgram (h : SameProgram m n) (keys : List Keypad) :
    played keys n = played keys m := by
  cases keys with
  | nil => rfl
  | cons first rest => rw [played, played, frame_of_sameProgram h]

/-- **A load ends the past of a machine**, as far as frames can tell. -/
theorem played_of_loaded (h5 : 5 ≤ m.memory.size) (hsize : n.memory.size = m.memory.size)
    (ha : a.Loads image) (hb : b.Loads image) (h : image.size ≤ m.memory.size)
    (keys : List Keypad) : played keys (m.act a).1 = played keys (n.act b).1 := by
  obtain ⟨x, hx, himage⟩ := act_of_fits ha h
  obtain ⟨y, hy, hother⟩ := act_of_fits (m := n) hb (hsize.symm ▸ h)
  rw [hsize] at hother
  have hmemory : x.memory = y.memory := himage.unique hother
  have hroom : 5 ≤ y.memory.size := by
    have := size_act n b
    rw [hy] at this
    rwa [this, hsize]
  rw [hx, hy]
  exact played_of_sameProgram ⟨hroom, congrArg Memory.size hmemory, fun k _ => by rw [hmemory]⟩ keys

/-! ### All of it -/

/-- How the loads of an image come out. -/
structure Loading (m : Machine) (image : ByteArray) : Prop where
  memory : ∀ n, m.loadMemory image = .ok n ↔
    n.memory.IsImage image m.memory.size ∧ n.pc = m.pc ∧ n.executed = m.executed
  machine : ∀ n, m.load image = .ok n ↔
    n.memory.IsImage image m.memory.size ∧ n.pc = 0 ∧ n.executed = m.executed
  file : ∀ n size, m.loadFile (.ok image) = .ok (n, size) ↔
    m.loadMemory image = .ok n ∧ size = image.size
  succeeds : ∀ a : Action, a.Loads image →
    ((m.act a).2 = .ok () ↔ image.size ≤ m.memory.size)
  tooLarge : ∀ a : Action, a.Loads image → m.memory.size < image.size →
    m.act a = (m, .error (.failed (.programTooLarge image.size m.memory.size)))
  unread : ∀ reason, m.act (.loadFile (.error reason)) = (m, .error (.failed (.io reason)))
  /-- Frames cannot tell the machine from a new one with as much memory. -/
  forgets : 5 ≤ m.memory.size → ∀ a b : Action, a.Loads image → b.Loads image →
    (m.act a).2 = .ok () →
      ((ofMemory (.blank m.memory.size)).act b).2 = .ok () ∧
        ∀ keys, played keys (m.act a).1 = played keys ((ofMemory (.blank m.memory.size)).act b).1

/-- **Loading is all or nothing, and all of it is new.** This is so for every machine,
whatever was done to it before. -/
theorem loading_exact (m : Machine) (image : ByteArray) : m.Loading image where
  memory _ := loadMemory_eq_ok_iff
  machine _ := load_eq_ok_iff
  file _ _ := loadFile_eq_ok_iff
  succeeds _ := act_loads_eq_ok_iff
  tooLarge _ := act_of_long
  unread _ := rfl
  forgets h5 a b ha hb h := by
    have hfits : image.size ≤ m.memory.size := (act_loads_eq_ok_iff ha).1 h
    have hsize : (ofMemory (.blank m.memory.size)).memory.size = m.memory.size :=
      Memory.size_blank _
    exact ⟨(act_loads_eq_ok_iff hb).2 (hsize.symm ▸ hfits), played_of_loaded h5 hsize ha hb hfits⟩

/-- Two bytes into a memory of four that is in use: the count is kept. -/
example : (⟨⟨⟨#[9, 9, 9, 9]⟩⟩, 5, 7⟩ : Machine).load ⟨#[1, 2]⟩ =
    .ok ⟨⟨⟨#[1, 2, 0, 0]⟩⟩, 0, 7⟩ := rfl

end Machine

end ByteByteJump
