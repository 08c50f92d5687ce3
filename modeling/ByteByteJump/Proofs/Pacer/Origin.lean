import ByteByteJump.Pacer

/-! What a frame's period is counted from.

Every pacing gives a frame one period, but not from the same instant: exact pacing
counts it from the deadline before, where there is one that was met, and truncated
pacing from the frame's own start. This instant is the frame's origin, and with it
the pacings are one: a frame is due a period after its origin (`due?_eq`), and it is
an overrun if its work is done later than that (`remaining_of_overdue`). What a frame
has lost before it starts, between its origin and its start, is its lateness. -/
namespace ByteByteJump.Pacer

variable {p : Pacer} {now : Nat}

/-- The instant from which the period of the frame is counted. -/
def origin (p : Pacer) : Nat :=
  if p.pacing = .exact then p.deadline.getD p.frameStart else p.frameStart

/-- How long after its origin the frame started. -/
def lateness (p : Pacer) : Nat := p.frameStart - p.origin

/-- The frame was due before an instant. Without a limit none ever is. -/
def Overdue (p : Pacer) (now : Nat) : Prop :=
  p.pacing ≠ .unlimited ∧ p.origin + p.pacing.period < now

instance (p : Pacer) (now : Nat) : Decidable (p.Overdue now) := inferInstanceAs (Decidable (_ ∧ _))

theorem due?_eq (p : Pacer) :
    p.due? = if p.pacing = .unlimited then none else some (p.origin + p.pacing.period) := by
  unfold due? origin
  cases p.pacing <;> rfl

@[simp] theorem pacing_new (pacing : Pacing) (made : Nat) : (new pacing made).pacing = pacing := rfl

/-! ### A frame starts -/

@[simp] theorem pacing_start : (p.start now).pacing = p.pacing := rfl

@[simp] theorem frameStart_start : (p.start now).frameStart = now := rfl

@[simp] theorem overran_start : (p.start now).overran = false := rfl

@[simp] theorem overruns_start : (p.start now).overruns = p.overruns := rfl

theorem deadline_start :
    (p.start now).deadline =
      if p.pacing = .exact ∧ (p.deadline = none ∨ p.overran = true) then some now
      else p.deadline := rfl

/-- The origin of a frame is the deadline before it, if that was met, and else its
start. -/
theorem origin_start :
    (p.start now).origin =
      if p.pacing = .exact ∧ p.overran = false then p.deadline.getD now else now := by
  unfold origin start
  by_cases hp : p.pacing = .exact
  · cases ho : p.overran <;> cases hd : p.deadline <;> simp [hp]
  · simp [hp]

/-! ### Its work is done -/

@[simp] theorem pacing_advance (due : Nat) : (p.advance due).pacing = p.pacing := by
  unfold advance
  split <;> rfl

@[simp] theorem frameStart_advance (due : Nat) : (p.advance due).frameStart = p.frameStart := by
  unfold advance
  split <;> rfl

@[simp] theorem overran_advance (due : Nat) : (p.advance due).overran = p.overran := by
  unfold advance
  split <;> rfl

@[simp] theorem overruns_advance (due : Nat) : (p.advance due).overruns = p.overruns := by
  unfold advance
  split <;> rfl

@[simp] theorem deadline_advance (due : Nat) :
    (p.advance due).deadline = if p.pacing = .exact then some due else p.deadline := by
  unfold advance
  split <;> rfl

theorem advance_of_ne_exact (hp : p.pacing ≠ .exact) (due : Nat) : p.advance due = p := if_neg hp

theorem remaining_of_overdue (h : p.Overdue now) :
    p.remaining now =
      ({ p.advance (p.origin + p.pacing.period) with overran := true, overruns := p.overruns + 1 },
        0, [.frameOverran (now - p.frameStart) p.pacing.period]) := by
  obtain ⟨hpacing, hlate⟩ := h
  unfold remaining
  rw [due?_eq, if_neg hpacing]
  exact if_pos hlate

theorem remaining_of_not_overdue (h : ¬ p.Overdue now) :
    p.remaining now =
      (p.advance (p.origin + p.pacing.period),
        if p.pacing = .unlimited then 0 else p.origin + p.pacing.period - now, []) := by
  unfold remaining
  rw [due?_eq]
  by_cases hpacing : p.pacing = .unlimited
  · have hexact : p.pacing ≠ .exact := by simp [hpacing]
    rw [if_pos hpacing, if_pos hpacing, advance_of_ne_exact hexact]
  · rw [if_neg hpacing, if_neg hpacing]
    exact if_neg fun hlate => h ⟨hpacing, hlate⟩

@[simp] theorem pacing_remaining : (p.remaining now).1.pacing = p.pacing := by
  by_cases h : p.Overdue now
  · simp [remaining_of_overdue h]
  · simp [remaining_of_not_overdue h]

@[simp] theorem frameStart_remaining : (p.remaining now).1.frameStart = p.frameStart := by
  by_cases h : p.Overdue now
  · simp [remaining_of_overdue h]
  · simp [remaining_of_not_overdue h]

theorem deadline_remaining :
    (p.remaining now).1.deadline =
      if p.pacing = .exact then some (p.origin + p.pacing.period) else p.deadline := by
  by_cases h : p.Overdue now
  · simp [remaining_of_overdue h]
  · simp [remaining_of_not_overdue h]

theorem overran_remaining : (p.remaining now).1.overran = (p.overran || p.Overdue now) := by
  by_cases h : p.Overdue now
  · simp [remaining_of_overdue h, h]
  · simp [remaining_of_not_overdue h, h]

theorem overruns_remaining :
    (p.remaining now).1.overruns = p.overruns + if p.Overdue now then 1 else 0 := by
  by_cases h : p.Overdue now
  · simp [remaining_of_overdue h, h]
  · simp [remaining_of_not_overdue h, h]

theorem left_remaining :
    (p.remaining now).2.1 =
      if p.pacing = .unlimited then 0 else p.origin + p.pacing.period - now := by
  by_cases h : p.Overdue now
  · have hgone : p.origin + p.pacing.period - now = 0 := Nat.sub_eq_zero_of_le (Nat.le_of_lt h.2)
    rw [remaining_of_overdue h, if_neg h.1, hgone]
  · rw [remaining_of_not_overdue h]

/-- An overrun is what is counted. -/
theorem overruns_lt_remaining_iff : p.overruns < (p.remaining now).1.overruns ↔ p.Overdue now := by
  rw [overruns_remaining]
  split
  next h => simp [h]
  next h => simp [h]

/-- Whatever is left of its period, the frame has it all: the wait ends no earlier than the
frame is due. -/
theorem due_le_wait (hp : p.pacing ≠ .unlimited) (now : Nat) :
    p.origin + p.pacing.period ≤ now + (p.remaining now).2.1 := by
  rw [left_remaining, if_neg hp]
  omega

end ByteByteJump.Pacer
