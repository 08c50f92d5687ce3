import ByteByteJump.Audio.Queue
import ByteByteJump.Audio.Rounding

/-! From the machine's rate of samples to the device's.

The machine makes 15360 samples a second; a device wants its own number. Each
sample is held until the next is due. A phase counts how far the device has come
in samples of the machine: it grows by a step for each output, and for each whole
sample it holds the next one is taken from the queue, or silence if there is
none.

Phase and step are numbers of single precision. They are counted here in units
of `2 ^ -42`. The step for a rate below `2 ^ 32` is at least `15 / 2 ^ 22`, so 24
bits of it reach down to that unit and no further, and sums and differences of
multiples of the unit are multiples of it.

A step for the rate 0 is infinite. After one output with it the phase is infinite,
too, and stays so whatever is taken off it: the next output is never reached, and has
no result here. -/
namespace ByteByteJump.Audio

/-- Samples the machine makes in a second. -/
def sourceRate : Nat := 15360

/-- A sample held, and how far its time has come. -/
structure Hold where
  step : Nat
  phase : Nat
  current : Sample
deriving DecidableEq, Repr

namespace Hold

/-- One sample of the machine, in units of the phase. -/
def one : Nat := 0x40000000000

/-- What is too large for single precision: `2 ^ 128` samples, the first power of two that it
does not have. Taking a sample off it is lost in rounding. -/
def infinite : Nat := 1 <<< 170

/-- The step at a device's rate, which is rounded like any other number. -/
def stepAt (rate : Nat) : Nat :=
  if rate = 0 then infinite else roundQuotient (sourceRate * one) (round rate)

/-- The start at a device's rate. The first output takes the first sample. -/
def ofRate (rate : Nat) : Hold := ⟨stepAt rate, one, .silence⟩

/-- Gives way to the next sample, for one whole sample of the phase. -/
def give (h : Hold) (s : Sample) : Hold := { h with phase := round (h.phase - one), current := s }

/-- Goes on by one output. -/
def advance (h : Hold) : Hold := { h with phase := round (h.phase + h.step) }

end Hold

/-- A queue of samples being played at a device's rate. -/
structure Player where
  hold : Hold
  queue : Queue
deriving DecidableEq, Repr

namespace Player

def ofRate (rate : Nat) : Player := ⟨.ofRate rate, .empty⟩

/-- Starts over at another rate, with the same queue. -/
def retune (p : Player) (rate : Nat) : Player := { p with hold := .ofRate rate }

/-- Queues samples and tells how many older ones were dropped. -/
def push (p : Player) (samples : List Sample) : Player × Nat :=
  let (queue, dropped) := p.queue.push samples
  ({ p with queue }, dropped)

/-! ### Outputs -/

/-- Takes one sample from the queue. -/
def take (p : Player) : Player :=
  let (s, queue) := p.queue.pop
  ⟨p.hold.give (s.getD .silence), queue⟩

/-- Takes every sample that is due. There is no result where that goes on for ever. -/
def catchUp? (p : Player) : Option Player :=
  if Hold.one ≤ p.hold.phase then by
    apply catchUp?
    exact p.take
  else some p
partial_fixpoint

/-- The next output. -/
def next? (p : Player) : Option (Sample × Player) :=
  p.catchUp?.map fun p => (p.hold.current, { p with hold := p.hold.advance })

/-- The next `n` outputs, or those before the first that is never reached. -/
def nextMany : Nat → Player → List Sample × Player
  | 0, p => ([], p)
  | n + 1, p =>
    match p.next? with
    | none => ([], p)
    | some (s, p) =>
      let (rest, p) := nextMany n p
      (s :: rest, p)

/-! ### Buffers -/

/-- Fills a buffer of `n` elements with device frames of one element a channel,
all of a frame the same; the last frame may be cut short. -/
def fillFrames? {α : Type} (convert : Sample → α) (channels : Nat) (h : 0 < channels) (n : Nat)
    (p : Player) : Option (List α × Player) :=
  if n = 0 then some ([], p)
  else
    match p.next? with
    | none => none
    | some (s, p) =>
      (fillFrames? convert channels h (n - channels) p).map fun (rest, p) =>
        (List.replicate (min channels n) (convert s) ++ rest, p)
termination_by n

/-- Fills a buffer of `n` elements. There are no frames without channels, and no result where
an output is never reached. -/
def fill? {α : Type} (convert : Sample → α) (channels n : Nat) (p : Player) :
    Option (List α × Player) :=
  if h : 0 < channels then fillFrames? convert channels h n p else none

end Player

end ByteByteJump.Audio
