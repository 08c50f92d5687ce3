import Mathlib.Algebra.Order.Field.Rat
import Mathlib.Algebra.Order.Group.Abs
import Mathlib.Tactic.Linarith
import Mathlib.Tactic.NormNum
import Mathlib.Tactic.Ring
import ByteByteJump.Proofs.Pacer.Schedule

/-! How far exact pacing is from sixty frames a second.

As long as no frame overruns, deadlines are a period apart, whenever the frames start
(`deadline_pacer`). A period is a whole number of nanoseconds and a sixtieth of a second
is not, so each deadline is two thirds of a nanosecond earlier than it should be, and
this adds up. Up to 1500 frames, or 25 seconds, it is a microsecond at most; after
that it is more (`deadline_drift`). -/
namespace ByteByteJump.Schedule

variable {x : Schedule} {made n : Nat}

theorem origin_eq (h : ∀ k < n, ¬ x.Overran (.new .exact made) k) :
    x.origin (.new .exact made) n = x.start 0 + n * Pacing.exact.period := by
  induction n with
  | zero => rw [origin_zero, Nat.zero_mul, Nat.add_zero]
  | succ n ih =>
    rw [origin_succ_of_met rfl (h n (Nat.lt_succ_self n)),
      ih fun k hk => h k (Nat.lt_succ_of_lt hk), Pacer.pacing_new, Nat.succ_mul, Nat.add_assoc]

/-- Deadlines are a period apart. -/
theorem deadline_pacer (hn : 0 < n) (h : ∀ k < n, ¬ x.Overran (.new .exact made) k) :
    (x.pacer (.new .exact made) n).deadline = some (x.start 0 + n * Pacing.exact.period) := by
  obtain ⟨n, rfl⟩ := Nat.exists_eq_succ_of_ne_zero (Nat.ne_of_gt hn)
  have horigin := origin_eq fun k hk => h k (Nat.lt_succ_of_lt hk)
  rw [origin] at horigin
  rw [pacer_succ, Pacer.deadline_remaining, pacing_underway, Pacer.pacing_new, if_pos rfl, horigin,
    Nat.succ_mul, Nat.add_assoc]

/-- How far an instant lies after the end of `n` true frames from the first start, in
nanoseconds. -/
def drift (x : Schedule) (n instant : Nat) : ℚ :=
  instant - (x.start 0 + n * (1000000000 / Pacing.framesPerSecond))

theorem drift_eq (x : Schedule) (n : Nat) :
    x.drift n (x.start 0 + n * Pacing.exact.period) = -(2 / 3 * n) := by
  have hperiod : Pacing.exact.period = 16666666 := rfl
  have hframes : Pacing.framesPerSecond = 60 := rfl
  rw [drift, hperiod, hframes]
  push_cast
  ring

theorem abs_drift_le_iff (x : Schedule) (n : Nat) :
    |x.drift n (x.start 0 + n * Pacing.exact.period)| ≤ 1000 ↔ n ≤ 1500 := by
  have hnonneg : (0 : ℚ) ≤ 2 / 3 * n := by positivity
  rw [drift_eq, abs_neg, abs_of_nonneg hnonneg]
  constructor
  · intro hle
    have : (n : ℚ) ≤ 1500 := by linarith
    exact_mod_cast this
  · intro hle
    have : (n : ℚ) ≤ 1500 := by exact_mod_cast hle
    linarith

/-- **Exact pacing runs ahead by two thirds of a nanosecond a frame.** The deadline of the
`n`-th frame in a row without an overrun stays within a microsecond of `n` sixtieths of a
second for the first 1500 frames, and for no longer. -/
theorem deadline_drift (x : Schedule) (made n : Nat) (hn : 0 < n)
    (h : ∀ k < n, ¬ x.Overran (.new .exact made) k) :
    ∃ d, (x.pacer (.new .exact made) n).deadline = some d ∧ x.drift n d = -(2 / 3 * n) ∧
      (|x.drift n d| ≤ 1000 ↔ n ≤ 1500) :=
  ⟨_, deadline_pacer hn h, drift_eq x n, abs_drift_le_iff x n⟩

/-- Frames without work, each started on the deadline before it. -/
def punctual : Schedule where
  start k := k * Pacing.exact.period
  done k := k * Pacing.exact.period

theorem underway_punctual (k : Nat) :
    punctual.underway (.new .exact 0) k =
      ⟨.exact, k * Pacing.exact.period, some (k * Pacing.exact.period), false, 0⟩ := by
  induction k with
  | zero => rfl
  | succ k ih =>
    have hmet : ¬ (punctual.underway (.new .exact 0) k).Overdue (punctual.done k) := by
      rw [ih]
      rintro ⟨-, hlate⟩
      exact absurd hlate (Nat.not_lt.2 (Nat.le_add_right _ _))
    rw [underway, pacer_succ, Pacer.remaining_of_not_overdue hmet, ih]
    simp only [Pacer.advance, Pacer.start, Pacer.origin, punctual, Nat.succ_mul]
    rfl

theorem not_overran_punctual (k : Nat) : ¬ punctual.Overran (.new .exact 0) k := by
  rw [overran_iff, underway_punctual]
  rintro ⟨-, hlate⟩
  exact absurd hlate (Nat.not_lt.2 (Nat.le_add_right _ _))

theorem kept_punctual (n : Nat) : punctual.Kept (.new .exact 0) n where
  working _ _ := Nat.le_refl _
  waiting k _ := by
    have hdone : punctual.done k = (punctual.underway (.new .exact 0) k).origin := by
      rw [underway_punctual]
      rfl
    have hnext : punctual.start (k + 1) = punctual.done k + Pacing.exact.period := Nat.succ_mul ..
    rw [wait, Pacer.left_remaining, pacing_underway, ← hdone, Pacer.pacing_new, if_neg nofun,
      Nat.add_sub_cancel_left, hnext]

/-- Sixty of them are 40 nanoseconds short of a second. -/
theorem punctual_second :
    (∀ k < 60, ¬ punctual.Overran (.new .exact 0) k) ∧
      ∃ d, (punctual.pacer (.new .exact 0) 60).deadline = some d ∧ punctual.drift 60 d = -40 := by
  have hmet : ∀ k < 60, ¬ punctual.Overran (.new .exact 0) k := fun k _ => not_overran_punctual k
  obtain ⟨d, hd, hdrift, -⟩ := deadline_drift punctual 0 60 (by decide) hmet
  refine ⟨hmet, d, hd, hdrift.trans ?_⟩
  norm_num

/-- The deadline of the 1501st is more than a microsecond off, and none was an overrun. -/
theorem punctual_exceeds_microsecond :
    punctual.Kept (.new .exact 0) 1501 ∧ (∀ k < 1501, ¬ punctual.Overran (.new .exact 0) k) ∧
      ∃ d, (punctual.pacer (.new .exact 0) 1501).deadline = some d ∧
        ¬ |punctual.drift 1501 d| ≤ 1000 := by
  have hmet : ∀ k < 1501, ¬ punctual.Overran (.new .exact 0) k :=
    fun k _ => not_overran_punctual k
  refine ⟨kept_punctual 1501, hmet, _, deadline_pacer (by decide) hmet, ?_⟩
  rw [abs_drift_le_iff]
  decide

end ByteByteJump.Schedule
