import Mathlib.Algebra.Ring.Nat
import Mathlib.Data.List.ReduceOption
import Mathlib.Data.List.Perm.Basic
import ByteByteJump.Audio.Queue

/-! What becomes of every sample.

A log lists what was done with a queue, with the answers, and what a device was then
given to play. The ledger of a log numbers the samples in the order in which they were
pushed and says which of them each take got, which were dropped, and after how many
takes each frame was played. The numbers are the queue's own if it gives up the oldest
of its samples first, to a take as well as to a push: then the ledger is `Sound`. -/
namespace ByteByteJump.Audio

/-- Something done with a queue of samples, with what came of it. -/
inductive Entry where
  | pushed (samples : List Sample) (dropped : Nat)
  | taken (answer : Option Sample)
  /-- A device is given a frame to play. -/
  | heard (s : Sample)

namespace Entry

def drop? : Entry → Option Nat
  | pushed _ dropped => some dropped
  | _ => none

def answer? : Entry → Option (Option Sample)
  | taken answer => some answer
  | _ => none

def frame? : Entry → Option Sample
  | heard s => some s
  | _ => none

end Entry

/-- How many samples each push dropped, in order. -/
def drops (es : List Entry) : List Nat := es.filterMap Entry.drop?

/-- What each take was answered. -/
def answers (es : List Entry) : List (Option Sample) := es.filterMap Entry.answer?

/-- The frames that were played. -/
def frames (es : List Entry) : List Sample := es.filterMap Entry.frame?

section Concat
variable (es : List Entry) (e : Entry)

theorem drops_concat : drops (es ++ [e]) = drops es ++ e.drop?.toList := by
  cases e <;> exact List.filterMap_append

theorem answers_concat : answers (es ++ [e]) = answers es ++ e.answer?.toList := by
  cases e <;> exact List.filterMap_append

theorem frames_concat : frames (es ++ [e]) = frames es ++ e.frame?.toList := by
  cases e <;> exact List.filterMap_append

end Concat

/-- Samples by their numbers, counted from the first that was pushed. -/
structure Ledger where
  pushed : List Sample
  /-- What each take got, if it got a sample. -/
  takes : List (Option Nat)
  dropped : List Nat
  /-- For each frame, how many takes there were before it. -/
  heard : List Nat

namespace Ledger

def empty : Ledger := ⟨[], [], [], []⟩

def popped (l : Ledger) : List Nat := l.takes.reduceOption

/-- How many samples are no longer queued. -/
def left (l : Ledger) : Nat := l.popped.length + l.dropped.length

def queued (l : Ledger) : List Nat := List.range' l.left (l.pushed.length - l.left)

/-- The sample of a take. -/
def sample? (l : Ledger) (take : Option Nat) : Option Sample := take.bind (l.pushed[·]?)

/-- The oldest samples go first. -/
def enter (l : Ledger) : Entry → Ledger
  | .pushed samples dropped =>
    { l with
      pushed := l.pushed ++ samples
      dropped := l.dropped ++ List.range' l.left dropped }
  | .taken answer => { l with takes := l.takes ++ [answer.map fun _ => l.left] }
  | .heard _ => { l with heard := l.heard ++ [l.takes.length] }

section Enter
variable (l : Ledger) (samples : List Sample) (dropped : Nat) (answer : Option Sample)

theorem left_pushed : (l.enter (.pushed samples dropped)).left = l.left + dropped := by
  simp only [left, enter, popped, List.length_append, List.length_range', Nat.add_assoc]

theorem popped_taken :
    (l.enter (.taken answer)).popped = l.popped ++ (answer.map fun _ => l.left).toList := by
  simp only [popped, enter, List.reduceOption_append, List.reduceOption_singleton]

theorem left_taken_none : (l.enter (.taken none)).left = l.left := by
  rw [left, popped_taken, Option.map_none, Option.toList_none, List.append_nil]
  rfl

theorem left_taken_some (s : Sample) : (l.enter (.taken (some s))).left = l.left + 1 := by
  rw [left, popped_taken, Option.map_some, Option.toList_some, List.length_append]
  exact Nat.add_right_comm ..

/-- Numbers keep their samples. -/
theorem sample?_pushed {take : Option Nat} (h : ∀ i ∈ take, i < l.pushed.length) :
    (l.enter (.pushed samples dropped)).sample? take = l.sample? take := by
  cases take with
  | none => rfl
  | some i => exact List.getElem?_append_left (h i rfl)

end Enter

end Ledger

/-- The ledger of a log. -/
def ledger (es : List Entry) : Ledger := es.foldl Ledger.enter .empty

theorem ledger_concat (es : List Entry) (e : Entry) : ledger (es ++ [e]) = (ledger es).enter e := by
  rw [ledger, List.foldl_append, ledger]
  rfl

/-! ### Queues -/

namespace Queue

theorem pop_fst (q : Queue) : q.pop.1 = q.samples.head? := by
  unfold pop
  cases q.samples <;> rfl

theorem samples_pop (q : Queue) : q.pop.2.samples = q.samples.tail := by
  unfold pop
  cases h : q.samples with
  | nil => exact h
  | cons s rest => rfl

end Queue

/-! ### Sound ledgers -/

/-- The queue has kept to the ledger of its log: it holds the samples that are neither popped nor
dropped, each take was answered with the sample that the ledger says, and as many are
dropped as the pushes told. -/
structure Sound (es : List Entry) (q : Queue) : Prop where
  waiting : q.samples = (ledger es).pushed.drop (ledger es).left
  left_le : (ledger es).left ≤ (ledger es).pushed.length
  size : q.size ≤ Queue.capacity
  gone : ((ledger es).popped ++ (ledger es).dropped).Perm (List.range (ledger es).left)
  sorted : (ledger es).popped.Pairwise (· < ·)
  answered : answers es = (ledger es).takes.map (ledger es).sample?
  counted : (ledger es).dropped.length = (drops es).sum

theorem sound_empty : Sound [] .empty where
  waiting := rfl
  left_le := Nat.le_refl _
  size := Nat.zero_le _
  gone := .refl _
  sorted := .nil
  answered := rfl
  counted := rfl

namespace Sound

variable {es : List Entry} {q : Queue}

/-- What was popped has left the queue. -/
theorem lt_left (h : Sound es q) {i : Nat} (hi : i ∈ (ledger es).popped) : i < (ledger es).left :=
  List.mem_range.1 (h.gone.subset (List.mem_append_left _ hi))

theorem size_eq (h : Sound es q) : q.size = (ledger es).pushed.length - (ledger es).left := by
  rw [Queue.size, h.waiting, List.length_drop]

/-- The oldest sample in the queue is the first that has not left it. -/
theorem head?_eq (h : Sound es q) : q.samples.head? = (ledger es).pushed[(ledger es).left]? := by
  rw [h.waiting, List.head?_drop]

/-- A take is answered with the first sample that has not left the queue. -/
theorem sample?_pop (h : Sound es q) :
    (ledger es).sample? (q.pop.1.map fun _ => (ledger es).left) = q.pop.1 := by
  have holdest := h.head?_eq
  rw [← Queue.pop_fst] at holdest
  cases hanswer : q.pop.1 with
  | none => rfl
  | some s => exact holdest.symm.trans hanswer

theorem push (h : Sound es q) (new : List Sample) :
    Sound (es ++ [.pushed new (q.push new).2]) (q.push new).1 := by
  have hle := h.left_le
  have hdropped : (q.push new).2 ≤ q.size + new.length := by
    rw [Queue.dropped_push]
    exact Nat.sub_le _ _
  rw [h.size_eq] at hdropped
  have hrest : (q.push new).1.samples = (q.samples ++ new).drop (q.push new).2 := by
    rw [Queue.samples_push, Queue.dropped_push]
  -- From here on it does not matter how many the queue has room for.
  generalize (q.push new).2 = dropped at hdropped hrest ⊢
  constructor
  · rw [ledger_concat, Ledger.left_pushed, hrest, h.waiting,
      ← List.drop_append_of_le_length hle, List.drop_drop]
    rfl
  · rw [ledger_concat, Ledger.left_pushed]
    show _ ≤ ((ledger es).pushed ++ new).length
    rw [List.length_append]
    omega
  · exact Queue.size_push_le q new
  · rw [ledger_concat, Ledger.left_pushed, List.range_eq_range', ← List.range'_append_1,
      Nat.zero_add, ← List.range_eq_range']
    show ((ledger es).popped ++ ((ledger es).dropped ++ _)).Perm _
    rw [← List.append_assoc]
    exact h.gone.append_right _
  · rw [ledger_concat]
    exact h.sorted
  · rw [ledger_concat, answers_concat, h.answered]
    show _ ++ [] = (ledger es).takes.map _
    rw [List.append_nil]
    apply List.map_congr_left
    intro take htake
    symm
    apply Ledger.sample?_pushed
    rintro i rfl
    exact Nat.lt_of_lt_of_le (h.lt_left (List.reduceOption_mem_iff.2 htake)) hle
  · rw [ledger_concat, drops_concat, List.sum_append, ← h.counted]
    show ((ledger es).dropped ++ _).length = _ + [dropped].sum
    rw [List.length_append, List.length_range', List.sum_singleton]

/-- What a take adds to the answers and to the ledger, and what it leaves. -/
theorem answered_taken (h : Sound es q) {answer : Option Sample}
    (hanswer : (ledger es).sample? (answer.map fun _ => (ledger es).left) = answer) :
    answers (es ++ [.taken answer]) =
      ((ledger es).enter (.taken answer)).takes.map (ledger es).sample? := by
  rw [answers_concat, h.answered, Ledger.enter, List.map_append, List.map_singleton, hanswer]
  rfl

theorem counted_taken (h : Sound es q) (answer : Option Sample) :
    (ledger es).dropped.length = (drops (es ++ [.taken answer])).sum := by
  rw [drops_concat, h.counted]
  exact congrArg List.sum (List.append_nil _).symm

/-- Nothing is taken from an empty queue. -/
theorem taken_none (h : Sound es q) : Sound (es ++ [.taken none]) q := by
  have hpopped : ((ledger es).enter (.taken none)).popped = (ledger es).popped := by
    rw [Ledger.popped_taken]
    exact List.append_nil _
  refine ⟨?_, ?_, h.size, ?_, ?_, ?_, ?_⟩ <;> rw [ledger_concat]
  · rw [Ledger.left_taken_none]
    exact h.waiting
  · rw [Ledger.left_taken_none]
    exact h.left_le
  · rw [Ledger.left_taken_none, hpopped]
    exact h.gone
  · rw [hpopped]
    exact h.sorted
  · exact h.answered_taken rfl
  · exact h.counted_taken none

/-- The oldest sample is taken. -/
theorem taken_some (h : Sound es q) {s : Sample} {rest : List Sample} (hq : q.samples = s :: rest) :
    Sound (es ++ [.taken (some s)]) ⟨rest⟩ := by
  have holdest : (ledger es).pushed[(ledger es).left]? = some s := by
    rw [← h.head?_eq, hq]
    rfl
  have hpopped : ((ledger es).enter (.taken (some s))).popped =
      (ledger es).popped ++ [(ledger es).left] := Ledger.popped_taken ..
  have hsize : rest.length + 1 ≤ Queue.capacity := by
    have := h.size
    rwa [Queue.size, hq] at this
  refine ⟨?_, ?_, Nat.le_of_succ_le hsize, ?_, ?_, ?_, ?_⟩ <;> rw [ledger_concat]
  · rw [Ledger.left_taken_some]
    show rest = (ledger es).pushed.drop _
    rw [← List.tail_drop, ← h.waiting, hq]
    rfl
  · rw [Ledger.left_taken_some]
    exact (List.getElem?_eq_some_iff.1 holdest).1
  · rw [Ledger.left_taken_some, hpopped, List.range_succ, List.append_assoc]
    show ((ledger es).popped ++ ([(ledger es).left] ++ (ledger es).dropped)).Perm _
    have hswap : ([(ledger es).left] ++ (ledger es).dropped).Perm
        ((ledger es).dropped ++ [(ledger es).left]) := List.perm_append_comm
    refine (hswap.append_left _).trans ?_
    rw [← List.append_assoc]
    exact h.gone.append_right _
  · rw [hpopped, List.pairwise_append]
    refine ⟨h.sorted, List.pairwise_singleton .., fun i hi j hj => ?_⟩
    rw [List.mem_singleton.1 hj]
    exact h.lt_left hi
  · exact h.answered_taken holdest
  · exact h.counted_taken (some s)

theorem take (h : Sound es q) : Sound (es ++ [.taken q.pop.1]) q.pop.2 := by
  unfold Queue.pop
  split
  · exact h.taken_none
  next hq => exact h.taken_some hq

theorem heard (h : Sound es q) (s : Sample) : Sound (es ++ [.heard s]) q := by
  constructor
  · rw [ledger_concat]
    exact h.waiting
  · rw [ledger_concat]
    exact h.left_le
  · exact h.size
  · rw [ledger_concat]
    exact h.gone
  · rw [ledger_concat]
    exact h.sorted
  · rw [ledger_concat, answers_concat, h.answered]
    exact List.append_nil _
  · rw [ledger_concat, drops_concat, List.sum_append, ← h.counted]
    rfl

/-! ### What a sound ledger shows -/

/-- Every sample that was pushed has been popped, or has been dropped, or is queued. -/
theorem once (h : Sound es q) :
    ((ledger es).popped ++ (ledger es).dropped ++ (ledger es).queued).Perm
      (List.range (ledger es).pushed.length) := by
  have hall : List.range (ledger es).pushed.length =
      List.range (ledger es).left ++ (ledger es).queued := by
    rw [Ledger.queued, List.range_eq_range', List.range_eq_range']
    conv_lhs => rw [← Nat.add_sub_cancel' h.left_le, ← List.range'_append_1, Nat.zero_add]
  rw [hall]
  exact h.gone.append_right _

/-- What was popped, and then what is queued, is in the order in which it was pushed. -/
theorem in_order (h : Sound es q) :
    ((ledger es).popped ++ (ledger es).queued).Pairwise (· < ·) := by
  rw [List.pairwise_append]
  refine ⟨h.sorted, List.pairwise_lt_range' .., fun i hi j hj => ?_⟩
  exact Nat.lt_of_lt_of_le (h.lt_left hi) (List.mem_range'_1.1 hj).1

/-- The queue holds the samples that the ledger has queued. -/
theorem queued_eq (h : Sound es q) :
    (ledger es).queued.map ((ledger es).pushed[·]?) = q.samples.map some := by
  rw [h.waiting, Ledger.queued]
  apply List.ext_getElem
  · simp
  · intro i hi hi'
    simp

theorem total (h : Sound es q) :
    (ledger es).pushed.length = (ledger es).popped.length + (drops es).sum + q.size := by
  have hleft : (ledger es).left = (ledger es).popped.length + (drops es).sum := by
    rw [← h.counted, Ledger.left]
  rw [← hleft, h.size_eq, Nat.add_sub_cancel' h.left_le]

end Sound

end ByteByteJump.Audio
