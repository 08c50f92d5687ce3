import ByteByteJump.Proofs.Audio.Ledger
import ByteByteJump.Proofs.Audio.Nearest
import ByteByteJump.Proofs.Audio.Phase

/-! Catching up ends.

Before each output samples are taken while the phase holds a whole one. In single precision
one taken off a phase of `2 ^ 24` or more may leave it as it was, and that would go on for
ever. A phase never grows so large: what is left of it before a step is less than one
sample, and no step is longer than the 15360 samples of a device that wants one a second.
The sum is rounded, but not past 15361, which single precision has (`called_bounds`). Below
that a whole sample is taken off exactly, and so often as the phase holds one
(`phase_iterate_take`).

Phases are counted in units small enough for all of them, and each that is computed is what
single precision has for the number itself (`RoundsTo`). -/
namespace ByteByteJump.Audio

/-- A phase or a step, in samples of the machine. -/
def inSamples (n : ℕ) : ℚ := n * 2 ^ (-42 : ℤ)

theorem inSamples_one : inSamples Hold.one = 1 := by
  norm_num [inSamples, Hold.one, zpow_neg]

theorem inSamples_add (m n : ℕ) : inSamples (m + n) = inSamples m + inSamples n := by
  rw [inSamples, Nat.cast_add, add_mul]
  rfl

theorem inSamples_sub {m n : ℕ} (h : n ≤ m) : inSamples (m - n) = inSamples m - inSamples n := by
  rw [inSamples, Nat.cast_sub h, sub_mul]
  rfl

theorem inSamples_mul (m n : ℕ) : inSamples (m * n) = inSamples m * n := by
  rw [inSamples, Nat.cast_mul, mul_right_comm]
  rfl

theorem inSamples_mul_one (n : ℕ) : inSamples (n * Hold.one) = n := by
  rw [Nat.mul_comm, inSamples_mul, inSamples_one, one_mul]

theorem inSamples_nonneg (n : ℕ) : 0 ≤ inSamples n :=
  mul_nonneg (Nat.cast_nonneg _) (zpow_pos two_pos _).le

theorem inSamples_le_iff {m n : ℕ} : inSamples m ≤ inSamples n ↔ m ≤ n := by
  have hunit : (0 : ℚ) < 2 ^ (-42 : ℤ) := zpow_pos two_pos _
  rw [inSamples, inSamples, mul_le_mul_iff_left₀ hunit, Nat.cast_le]

theorem inSamples_lt_iff {m n : ℕ} : inSamples m < inSamples n ↔ m < n := by
  rw [← not_le, inSamples_le_iff, not_le]

theorem roundsTo_inSamples {n : ℕ} (h : n < 2 ^ 66) :
    RoundsTo (inSamples n) (inSamples (round n)) :=
  roundsTo_round (by decide) (by decide) h

namespace Player

variable {p : Player} {h : Hold} {q : Queue} {rate n : ℕ}

theorem samples_iterate_take (p : Player) (i : ℕ) :
    (take^[i] p).queue.samples = p.queue.samples.drop i := by
  induction i with
  | zero => rfl
  | succ i ih =>
    have hqueue : (take^[i] p).take.queue = (take^[i] p).queue.pop.2 := rfl
    rw [Function.iterate_succ_apply', hqueue, Queue.samples_pop, ih, List.tail_drop]

/-! ### Bounds -/

/-- Whole numbers of samples are numbers of single precision, up to 24 bits of them. -/
theorem single_mul_one (hn : n ≤ 2 ^ significantBits) : Single (n * Hold.one) := by
  have hone : Hold.one = 2 ^ 42 := by decide
  rw [hone]
  exact single_mul hn 42

theorem single_unit : Single 1 := Nat.dvd_refl 1

section Rate
variable (hrate : 0 < rate) (h32 : rate < 2 ^ 32)

include hrate

theorem round_rate_pos : 0 < round rate := le_round_of_single single_unit hrate

theorem step_ofRate : (Hold.ofRate rate).step = roundQuotient (sourceRate * Hold.one) (round rate) :=
  Hold.stepAt_of_pos hrate

theorem step_ofRate_le : (Hold.ofRate rate).step ≤ sourceRate * Hold.one := by
  have hpos := round_rate_pos hrate
  rw [step_ofRate hrate]
  exact roundQuotient_le_of_single (single_mul_one (by decide)) hpos (Nat.le_mul_of_pos_right _ hpos)

include h32

theorem step_ofRate_pos : 0 < (Hold.ofRate rate).step := by
  rw [step_ofRate hrate]
  apply le_roundQuotient_of_single single_unit (round_rate_pos hrate)
  rw [Nat.one_mul]
  exact Nat.le_trans (round_le h32) (by decide)

/-- The step is the quotient as single precision has it. -/
theorem roundsTo_step_ofRate :
    RoundsTo (15360 / (round rate : ℕ)) (inSamples (Hold.ofRate rate).step) := by
  have hquotient : ((sourceRate * Hold.one : ℕ) : ℚ) / (round rate : ℕ) * 2 ^ (-42 : ℤ) =
      15360 / (round rate : ℕ) := by
    rw [div_mul_eq_mul_div]
    exact congrArg (· / ((round rate : ℕ) : ℚ)) (inSamples_mul_one sourceRate)
  have hle : round rate ≤ 2 ^ 32 := round_le h32
  rw [← hquotient, step_ofRate hrate]
  apply roundsTo_roundQuotient (by decide) (by decide) (round_rate_pos hrate)
  · exact Nat.le_trans (Nat.mul_le_mul_left _ hle) (by decide)
  · exact Nat.lt_of_le_of_lt (Nat.div_le_self ..) (by decide)

/-- A phase between calls is more than nothing and at most 15361 samples. -/
theorem called_bounds (hh : Called rate h) :
    0 < h.phase ∧ h.phase ≤ (sourceRate + 1) * Hold.one := by
  induction hh with
  | start => exact ⟨Hold.one_pos, Nat.le_mul_of_pos_left _ (Nat.succ_pos _)⟩
  | @next h q s p hh hnext ih =>
    have hsteady := hh.steady hrate
    obtain ⟨-, rfl, hdone⟩ := next?_eq_some (p := ⟨h, q⟩) hsteady.single hnext
    have hstep : (caughtUp ⟨h, q⟩).hold.step = (Hold.ofRate rate).step :=
      (step_caughtUp hsteady).trans (hh.step hrate)
    have hpos := step_ofRate_pos hrate h32
    have hle := step_ofRate_le hrate
    rw [advanced, Hold.advance]
    constructor
    · exact le_round_of_single single_unit (by omega)
    · apply round_le_of_single (single_mul_one (by decide))
      rw [Nat.add_mul, Nat.one_mul]
      omega

end Rate

/-! ### All of it -/

/-- The loop of a call takes `n` samples: so often it finds that the phase holds a whole one, and
takes it off, and then the phase holds none, and the loop has its result. -/
structure CatchesUp (p : Player) (n : ℕ) : Prop where
  due : ∀ i < n, 1 ≤ inSamples (take^[i] p).hold.phase
  rounded : ∀ i < n, RoundsTo (inSamples (take^[i] p).hold.phase - 1)
    (inSamples (take^[i + 1] p).hold.phase)
  exact : ∀ i < n, inSamples (take^[i + 1] p).hold.phase = inSamples (take^[i] p).hold.phase - 1
  least : 0 ≤ inSamples (take^[n] p).hold.phase
  done : inSamples (take^[n] p).hold.phase < 1
  result : p.catchUp? = some (take^[n] p)
  left : (take^[n] p).queue.samples = p.queue.samples.drop n

theorem catchesUp (hp : p.hold.Steady) : CatchesUp p (p.hold.phase / Hold.one) := by
  have hstops := stopsAfter_of_steady hp
  have hless (i : ℕ) (hi : i < p.hold.phase / Hold.one) :
      inSamples ((take^[i] p).hold.phase - Hold.one) =
        inSamples (take^[i] p).hold.phase - 1 := by
    rw [inSamples_sub (hstops.due i hi), inSamples_one]
  refine ⟨fun i hi => ?_, fun i hi => ?_, fun i hi => ?_, ?_, ?_,
    catchUp?_eq_some_iff.2 ⟨_, hstops, rfl⟩, samples_iterate_take p _⟩
  · rw [← inSamples_one]
    exact inSamples_le_iff.2 (hstops.due i hi)
  · have hsteady := steady_iterate_take hp i
    have hround := roundsTo_inSamples (Nat.lt_of_le_of_lt (Nat.sub_le _ Hold.one) hsteady.phase_lt)
    rw [hless i hi] at hround
    rw [Function.iterate_succ_apply', hold_take]
    exact hround
  · rw [Function.iterate_succ_apply', phase_take (steady_iterate_take hp i), hless i hi]
  · exact inSamples_nonneg _
  · rw [← inSamples_one]
    exact inSamples_lt_iff.2 hstops.done

/-- What a resampler at a device's rate is like between calls, and the call that comes next. -/
structure KeepsUp (rate : ℕ) (h : Hold) : Prop where
  rate_rounded : RoundsTo rate (round rate : ℕ)
  step_rounded : RoundsTo (15360 / (round rate : ℕ)) (inSamples h.step)
  phase_pos : 0 < inSamples h.phase
  phase_le : inSamples h.phase ≤ 15361
  loop : ∀ q, ∃ n ≤ 15361, CatchesUp ⟨h, q⟩ n
  advance_rounded : ∀ q, ∃ p s r, catchUp? ⟨h, q⟩ = some p ∧ next? ⟨h, q⟩ = some (s, r) ∧
    RoundsTo (inSamples p.hold.phase + inSamples h.step) (inSamples r.hold.phase)

/-- **Catching up ends**, at any rate of a device, after any calls and on any queue. -/
theorem catching_up_ends (hrate : 0 < rate) (h32 : rate < 2 ^ 32) (hh : Called rate h) :
    KeepsUp rate h where
  rate_rounded := by
    have hround := roundsTo_round (u := 0) (n := rate) (by decide) (by decide)
      (Nat.lt_trans h32 (by decide))
    rwa [zpow_zero, mul_one, mul_one] at hround
  step_rounded := by
    rw [hh.step hrate]
    exact roundsTo_step_ofRate hrate h32
  phase_pos := by
    have hpos := inSamples_lt_iff.2 (called_bounds hrate h32 hh).1
    rwa [inSamples, Nat.cast_zero, zero_mul] at hpos
  phase_le := by
    have hle := inSamples_le_iff.2 (called_bounds hrate h32 hh).2
    rwa [inSamples_mul_one] at hle
  loop q := by
    refine ⟨_, ?_, catchesUp (p := ⟨h, q⟩) (hh.steady hrate)⟩
    exact Nat.div_le_of_le_mul ((called_bounds hrate h32 hh).2.trans_eq (Nat.mul_comm ..))
  advance_rounded q := by
    have hsteady := hh.steady hrate
    have hdone : (caughtUp ⟨h, q⟩).hold.phase < Hold.one := phase_caughtUp_lt hsteady
    have hstep : h.step ≤ 2 ^ 56 := hsteady.step_le
    have hone : Hold.one ≤ 2 ^ 56 := by decide
    refine ⟨_, _, _, catchUp?_of_steady hsteady, next?_of_steady hsteady, ?_⟩
    rw [advanced, Hold.advance, step_caughtUp hsteady, ← inSamples_add]
    exact roundsTo_inSamples (by omega)

/-- The slowest device, after its first call: the next takes 15360 samples. -/
theorem slowest_catches_up :
    ∃ h, Called 1 h ∧ inSamples h.phase = 15360 ∧ KeepsUp 1 h := by
  have hfirst : next? ⟨.ofRate 1, .empty⟩ = some (_, _) :=
    next?_of_steady (Hold.steady_ofRate Nat.one_pos)
  have hcalled := Called.start.next hfirst
  refine ⟨_, hcalled, ?_, catching_up_ends (by decide) (by decide) hcalled⟩
  have hphase : (advanced ⟨.ofRate 1, .empty⟩).hold.phase = 15360 * Hold.one := by
    decide +kernel
  rw [hphase, inSamples_mul_one]
  rfl

end Player

end ByteByteJump.Audio
