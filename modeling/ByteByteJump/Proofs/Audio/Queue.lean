import Mathlib.Data.List.DropRight
import ByteByteJump.Proofs.Audio.Ledger
import ByteByteJump.Proofs.Audio.Sample

/-! The queue is first in, first out, and drops the oldest.

However often bytes are pushed and samples are popped, no more than four frames are
queued; what a push cannot keep of all there is goes from the front, new samples
included if there are too many of them. Nothing else is lost: the ledger of the whole
history is sound (`queue_conserves`), and a push does not tell how its samples were
cut into pieces. -/
namespace ByteByteJump.Audio

namespace Queue

/-- Pushes the samples of bytes. -/
def pushBytes (q : Queue) (bytes : List UInt8) : Queue × Nat := q.push (bytes.map .ofByte)

/-- Pushes bytes piece by piece, and counts what was dropped in all. -/
def pushPieces (q : Queue) : List (List UInt8) → Queue × Nat
  | [] => (q, 0)
  | bytes :: pieces =>
    let (q, dropped) := q.pushBytes bytes
    let (q, more) := pushPieces q pieces
    (q, dropped + more)

theorem pushPieces_cons (q : Queue) (bytes : List UInt8) (pieces : List (List UInt8)) :
    q.pushPieces (bytes :: pieces) = (((q.pushBytes bytes).1.pushPieces pieces).1,
      (q.pushBytes bytes).2 + ((q.pushBytes bytes).1.pushPieces pieces).2) := rfl

/-- A history of a queue that was empty, with its log. -/
inductive Served : List Entry → Queue → Prop where
  | empty : Served [] .empty
  | push {es : List Entry} {q : Queue} (h : Served es q) (bytes : List UInt8) :
      Served (es ++ [.pushed (bytes.map .ofByte) (q.pushBytes bytes).2]) (q.pushBytes bytes).1
  | pop {es : List Entry} {q : Queue} (h : Served es q) :
      Served (es ++ [.taken q.pop.1]) q.pop.2

theorem Served.sound {es : List Entry} {q : Queue} (h : Served es q) : Sound es q := by
  induction h with
  | empty => exact sound_empty
  | push _ bytes ih => exact ih.push (bytes.map .ofByte)
  | pop _ ih => exact ih.take

/-! ### One call -/

variable {q : Queue}

theorem eq_of_samples {p q : Queue} (h : p.samples = q.samples) : p = q := by
  cases p
  cases q
  cases h
  rfl

theorem samples_push_eq_rtake (q : Queue) (new : List Sample) :
    (q.push new).1.samples = (q.samples ++ new).rtake (min capacity (q.size + new.length)) := by
  have hlength : (q.samples ++ new).length = q.size + new.length := List.length_append
  have hkept (n : Nat) : n - min capacity n = n - capacity := by omega
  rw [samples_push, List.rtake, hlength, hkept]

/-- What is pushed at once may as well be pushed in two parts. -/
theorem push_append (q : Queue) (xs ys : List Sample) :
    (q.push (xs ++ ys)).1 = ((q.push xs).1.push ys).1 ∧
      (q.push (xs ++ ys)).2 = (q.push xs).2 + ((q.push xs).1.push ys).2 := by
  have hfirst : (q.push xs).2 ≤ (q.samples ++ xs).length := by
    rw [dropped_push, List.length_append]
    exact Nat.sub_le _ _
  have hsize : (q.push xs).1.size = q.size + xs.length - (q.push xs).2 := by
    rw [size, samples_push, ← dropped_push, List.length_drop, List.length_append]
    rfl
  have hdropped : (q.push (xs ++ ys)).2 = (q.push xs).2 + ((q.push xs).1.push ys).2 := by
    rw [dropped_push, dropped_push _ ys, hsize, dropped_push, List.length_append]
    omega
  refine ⟨?_, hdropped⟩
  apply eq_of_samples
  rw [samples_push, ← dropped_push, hdropped, ← List.append_assoc, ← List.drop_drop,
    List.drop_append_of_le_length hfirst, samples_push _ ys, ← dropped_push, samples_push q xs,
    ← dropped_push]

theorem push_nil (h : q.size ≤ capacity) : q.push [] = (q, 0) := by
  have hdropped : (q.push []).2 = 0 := by
    rw [dropped_push, List.length_nil]
    exact Nat.sub_eq_zero_of_le h
  have hsamples : (q.push []).1.samples = q.samples := by
    rw [samples_push, ← dropped_push, hdropped, List.append_nil, List.drop_zero]
  exact Prod.ext (eq_of_samples hsamples) hdropped

/-- Pieces come to the same as the whole. -/
theorem pushPieces_eq (h : q.size ≤ capacity) (pieces : List (List UInt8)) :
    q.pushPieces pieces = q.pushBytes pieces.flatten := by
  induction pieces generalizing q with
  | nil => exact (push_nil h).symm
  | cons bytes pieces ih =>
    obtain ⟨hqueue, hdropped⟩ :=
      push_append q (bytes.map .ofByte) (pieces.flatten.map .ofByte)
    have hrest : (q.pushBytes bytes).1.pushPieces pieces =
        (q.pushBytes bytes).1.pushBytes pieces.flatten := ih (size_push_le q (bytes.map .ofByte))
    have hwhole : q.pushBytes (bytes ++ pieces.flatten) =
        q.push (bytes.map .ofByte ++ pieces.flatten.map .ofByte) := by
      rw [pushBytes, List.map_append]
    rw [pushPieces_cons, hrest, List.flatten_cons, hwhole]
    exact Prod.ext hqueue.symm hdropped.symm

/-- What each call does to a queue that is within bounds. -/
structure Bounded (q : Queue) : Prop where
  size : q.size ≤ 1024
  push : ∀ bytes, (q.pushBytes bytes).2 = q.size + bytes.length - 1024 ∧
    (q.pushBytes bytes).1.samples =
      (q.samples ++ bytes.map Sample.ofByte).rtake (min 1024 (q.size + bytes.length))
  pop : q.pop.1 = q.samples.head? ∧ q.pop.2.samples = q.samples.tail
  underrun : q.pop.1 = none ↔ q.size = 0
  pieces : ∀ pieces, q.pushPieces pieces = q.pushBytes pieces.flatten

theorem bounded_of_size_le (h : q.size ≤ capacity) : Bounded q where
  size := h
  push bytes := by
    have hdropped := dropped_push q (bytes.map .ofByte)
    have hsamples := samples_push_eq_rtake q (bytes.map .ofByte)
    rw [List.length_map] at hdropped hsamples
    exact ⟨hdropped, hsamples⟩
  pop := ⟨pop_fst q, samples_pop q⟩
  underrun := by rw [pop_fst, List.head?_eq_none_iff, size, List.length_eq_zero_iff]
  pieces := pushPieces_eq h

/-! ### The whole history -/

/-- What a history comes to, sample by sample. -/
structure Conserved (es : List Entry) (q : Queue) : Prop where
  /-- Every sample that was pushed is popped, dropped or queued, and only one of these. -/
  once : ((ledger es).popped ++ (ledger es).dropped ++ (ledger es).queued).Perm
    (List.range (ledger es).pushed.length)
  inOrder : ((ledger es).popped ++ (ledger es).queued).Pairwise (· < ·)
  answers : answers es = (ledger es).takes.map (ledger es).sample?
  queued : q.samples.map some = (ledger es).queued.map ((ledger es).pushed[·]?)
  drops : (ledger es).dropped.length = (drops es).sum
  total : (ledger es).pushed.length = (ledger es).popped.length + (Audio.drops es).sum + q.size

end Queue

theorem Sound.conserved {es : List Entry} {q : Queue} (h : Sound es q) : Queue.Conserved es q :=
  ⟨h.once, h.in_order, h.answered, h.queued_eq.symm, h.counted, h.total⟩

namespace Queue

/-- **The queue is a bounded one that drops the oldest.** Whatever was done before, a queue is
within bounds, each call does to it what it should, and the samples of the history are all
accounted for, in order. A sample is the byte as a signed number of 128ths. -/
theorem queue_conserves {es : List Entry} {q : Queue} (h : Served es q) :
    Bounded q ∧ Conserved es q ∧
      ∀ b : UInt8, (Sample.ofByte b).amplitude = signed b / 128 ∧
        singleValue (Sample.ofByte b).single = signed b / 128 := by
  have hsound := h.sound
  refine ⟨bounded_of_size_le hsound.size, hsound.conserved, fun b => ?_⟩
  rw [Sample.singleValue_single, Sample.amplitude_ofByte]
  exact ⟨rfl, rfl⟩

/-- One byte too many in one push: a queue is left full, without the first of them. -/
theorem overfull_conserves :
    ∃ q, Served [.pushed ((1 :: List.replicate 1024 2).map .ofByte) 1] q ∧ Bounded q ∧
      q.size = 1024 := by
  have hlength : (1 :: List.replicate 1024 (2 : UInt8)).length = 1025 := by
    rw [List.length_cons, List.length_replicate]
  generalize 1 :: List.replicate 1024 (2 : UInt8) = bytes at hlength ⊢
  have hserved := Served.empty.push bytes
  have hdropped : (empty.pushBytes bytes).2 = 1 := by
    rw [pushBytes, dropped_push, List.length_map, hlength]
    rfl
  rw [hdropped] at hserved
  obtain ⟨hbounded, hconserved, -⟩ := queue_conserves hserved
  refine ⟨_, hserved, hbounded, ?_⟩
  have htotal : (bytes.map Sample.ofByte).length = 0 + 1 + (empty.pushBytes bytes).1.size :=
    hconserved.total
  rw [List.length_map, hlength] at htotal
  omega

end Queue

end ByteByteJump.Audio
