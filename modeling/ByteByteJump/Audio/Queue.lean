import ByteByteJump.Audio.Sample

/-! Samples waiting to be played.

A queue keeps samples in order and at most four frames of them: where more are
pushed, the oldest go. -/
namespace ByteByteJump.Audio

structure Queue where
  samples : List Sample
deriving DecidableEq, Repr

namespace Queue

/-- Four frames of 256 samples. -/
def capacity : Nat := 1024

def empty : Queue := ⟨[]⟩

def size (q : Queue) : Nat := q.samples.length

def isEmpty (q : Queue) : Bool := q.samples.isEmpty

/-- Appends samples and tells how many of the oldest were dropped for them. -/
def push (q : Queue) (new : List Sample) : Queue × Nat :=
  let all := q.samples ++ new
  let excess := all.length - capacity
  (⟨all.drop excess⟩, excess)

/-- Takes the oldest sample. -/
def pop (q : Queue) : Option Sample × Queue :=
  match q.samples with
  | [] => (none, q)
  | s :: rest => (some s, ⟨rest⟩)

/-- Takes samples `n` times. -/
def popMany : Nat → Queue → List (Option Sample) × Queue
  | 0, q => ([], q)
  | n + 1, q =>
    let (s, q) := q.pop
    let (rest, q) := popMany n q
    (s :: rest, q)

theorem samples_push (q : Queue) (new : List Sample) :
    (q.push new).1.samples = (q.samples ++ new).drop (q.size + new.length - capacity) := by
  simp [push, size]

theorem dropped_push (q : Queue) (new : List Sample) :
    (q.push new).2 = q.size + new.length - capacity := by
  simp [push, size]

theorem size_push_le (q : Queue) (new : List Sample) : (q.push new).1.size ≤ capacity := by
  simp only [size, samples_push, List.length_drop, List.length_append]
  omega

end Queue

end ByteByteJump.Audio
