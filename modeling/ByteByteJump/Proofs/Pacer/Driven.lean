import ByteByteJump.Proofs.Pacer.Origin

/-! A pacer that is driven in time.

A frame loop tells its pacer that a frame starts, does the work, asks what is left of
the period and waits for so long at least before the next frame starts. A frame may
be given up on the way, and then the next start follows without a question; wakings
may be late and pauses long. `Driven` is every pacer that this leads to, from a new
one on. No frame is then counted from an instant that is still to come
(`origin_le_frameStart`), for a deadline is never ahead of the frame that starts
after it (`deadline_le`). -/
namespace ByteByteJump.Pacer

variable {p : Pacer} {pacing : Pacing} {made t now : Nat} {busy : Bool}

/-- The pacers of a frame loop, each with the earliest instant of the next call. While a
frame is under way the flag is set. -/
inductive Driven (pacing : Pacing) (made : Nat) : Bool → Pacer → Nat → Prop where
  | new : Driven pacing made false (.new pacing made) 0
  | start {busy : Bool} {p : Pacer} {t now : Nat} (h : Driven pacing made busy p t)
      (hnow : t ≤ now) : Driven pacing made true (p.start now) now
  | done {p : Pacer} {t now : Nat} (h : Driven pacing made true p t) (hnow : t ≤ now) :
      Driven pacing made false (p.remaining now).1 (now + (p.remaining now).2.1)

namespace Driven

@[simp] theorem pacing_eq (h : Driven pacing made busy p t) : p.pacing = pacing := by
  induction h with
  | new => rfl
  | start _ _ ih => exact ih
  | done _ _ ih => rw [pacing_remaining, ih]

/-- A frame that is under way has just started. -/
theorem frameStart_eq (h : Driven pacing made true p t) : p.frameStart = t := by
  cases h
  rfl

/-- A deadline is never ahead of the next call. -/
theorem deadline_le (h : Driven pacing made busy p t) : ∀ d, p.deadline = some d → d ≤ t := by
  induction h with
  | new => nofun
  | @start _ p t now h hnow ih =>
    intro d hd
    rw [deadline_start] at hd
    split at hd
    · cases hd
      exact Nat.le_refl _
    · exact Nat.le_trans (ih d hd) hnow
  | @done p t now h hnow ih =>
    intro d hd
    rw [deadline_remaining] at hd
    split at hd
    next hexact =>
      cases hd
      exact due_le_wait (by simp [hexact]) now
    next =>
      have := ih d hd
      omega

/-- No frame is counted from an instant after its start. -/
theorem origin_le_frameStart (h : Driven pacing made true p t) : p.origin ≤ p.frameStart := by
  unfold origin
  split
  next =>
    cases hd : p.deadline with
    | none => exact Nat.le_refl _
    | some d =>
      rw [h.frameStart_eq]
      exact h.deadline_le d hd
  next => exact Nat.le_refl _

end Driven

end ByteByteJump.Pacer
