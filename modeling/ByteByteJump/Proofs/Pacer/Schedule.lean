import ByteByteJump.Proofs.Pacer.Driven

/-! Frames one after the other.

A schedule is the two instants of each frame of a loop: its start, and when its work
is done. It is kept up to a frame if work takes time and no frame starts before the
wait of the one before is over; a start may be as late as it likes. The origins of a
kept schedule are a period apart at least (`origin_add_le`), and a frame never
starts before its origin. That is all there is to pacing: a frame that starts late
may be followed by a short one, which makes up for it, but never by two. -/
namespace ByteByteJump

structure Schedule where
  start : Nat → Nat
  done : Nat → Nat

namespace Schedule

variable (x : Schedule) (p : Pacer)

/-- The pacer before a frame, if `p` is the one before the first. -/
def pacer : Nat → Pacer
  | 0 => p
  | k + 1 => (((pacer k).start (x.start k)).remaining (x.done k)).1

/-- The pacer while a frame is under way. -/
def underway (k : Nat) : Pacer := (x.pacer p k).start (x.start k)

/-- How long to wait after a frame. -/
def wait (k : Nat) : Nat := ((x.underway p k).remaining (x.done k)).2.1

/-- A frame is counted as an overrun. -/
def Overran (k : Nat) : Prop := (x.pacer p k).overruns < (x.pacer p (k + 1)).overruns

def origin (k : Nat) : Nat := (x.underway p k).origin

/-- The frames before `n` are driven in time, and so is the start of frame `n`. -/
structure Kept (n : Nat) : Prop where
  working : ∀ k < n, x.start k ≤ x.done k
  waiting : ∀ k < n, x.done k + x.wait p k ≤ x.start (k + 1)

variable {x p} {pacing : Pacing} {made k n : Nat}

theorem pacer_succ (k : Nat) : x.pacer p (k + 1) = ((x.underway p k).remaining (x.done k)).1 := rfl

@[simp] theorem pacing_pacer (k : Nat) : (x.pacer p k).pacing = p.pacing := by
  induction k with
  | zero => rfl
  | succ k ih => rw [pacer_succ, Pacer.pacing_remaining, underway, Pacer.pacing_start, ih]

@[simp] theorem pacing_underway (k : Nat) : (x.underway p k).pacing = p.pacing := pacing_pacer k

theorem overran_iff : x.Overran p k ↔ (x.underway p k).Overdue (x.done k) := by
  have hcount : (x.underway p k).overruns = (x.pacer p k).overruns := rfl
  rw [Overran, pacer_succ, ← hcount, Pacer.overruns_lt_remaining_iff]

theorem overran_pacer_succ (k : Nat) :
    (x.pacer p (k + 1)).overran = decide ((x.underway p k).Overdue (x.done k)) := by
  rw [pacer_succ, Pacer.overran_remaining]
  rfl

/-- With exact pacing a frame goes by the deadline before it, if that was met. -/
theorem origin_succ_of_met (hp : p.pacing = .exact) (h : ¬ x.Overran p k) :
    x.origin p (k + 1) = x.origin p k + p.pacing.period := by
  have hmet : (x.pacer p (k + 1)).overran = false := by
    rw [overran_pacer_succ, decide_eq_false_iff_not, ← overran_iff]
    exact h
  rw [origin, underway, Pacer.origin_start, pacing_pacer, if_pos ⟨hp, hmet⟩, pacer_succ,
    Pacer.deadline_remaining, pacing_underway, if_pos hp]
  rfl

/-- Any other frame goes by its own start. -/
theorem origin_succ_of_missed (h : p.pacing = .exact → x.Overran p k) :
    x.origin p (k + 1) = x.start (k + 1) := by
  rw [origin, underway, Pacer.origin_start, pacing_pacer, if_neg]
  rintro ⟨hp, hmet⟩
  rw [overran_pacer_succ, decide_eq_false_iff_not, ← overran_iff] at hmet
  exact hmet (h hp)

theorem origin_succ_cases (x : Schedule) (p : Pacer) (k : Nat) :
    (p.pacing = .exact ∧ ¬ x.Overran p k ∧
      x.origin p (k + 1) = x.origin p k + p.pacing.period) ∨
    x.origin p (k + 1) = x.start (k + 1) := by
  by_cases hp : p.pacing = .exact
  · by_cases hk : x.Overran p k
    · exact .inr (origin_succ_of_missed fun _ => hk)
    · exact .inl ⟨hp, hk, origin_succ_of_met hp hk⟩
  · exact .inr (origin_succ_of_missed fun h => absurd h hp)

/-- Without deadlines a frame goes by its own start. -/
theorem origin_of_ne_exact (hp : p.pacing ≠ .exact) : x.origin p k = x.start k := by
  rw [origin, underway, Pacer.origin_start, pacing_pacer, if_neg fun h => hp h.1]

/-- The first frame of a new pacer goes by its own start, too. -/
theorem origin_zero : x.origin (.new pacing made) 0 = x.start 0 := by
  rw [origin, underway, Pacer.origin_start]
  split <;> rfl

/-! ### Schedules that are kept -/

namespace Kept

theorem mono (h : x.Kept p n) (hk : k ≤ n) : x.Kept p k :=
  ⟨fun j hj => h.working j (by omega), fun j hj => h.waiting j (by omega)⟩

/-- A kept schedule drives its pacer in time. -/
theorem driven (h : x.Kept (.new pacing made) n) :
    ∃ t ≤ x.start n, Pacer.Driven pacing made false (x.pacer (.new pacing made) n) t := by
  induction n with
  | zero => exact ⟨0, Nat.zero_le _, .new⟩
  | succ n ih =>
    obtain ⟨t, ht, hdriven⟩ := ih (h.mono (Nat.le_succ n))
    exact ⟨_, h.waiting n (Nat.lt_succ_self n),
      .done (.start hdriven ht) (h.working n (Nat.lt_succ_self n))⟩

/-- No frame starts before its origin. -/
theorem origin_le_start (h : x.Kept (.new pacing made) n) :
    x.origin (.new pacing made) n ≤ x.start n := by
  obtain ⟨t, ht, hdriven⟩ := h.driven
  exact (Pacer.Driven.start hdriven ht).origin_le_frameStart

/-- The next frame starts no earlier than the one before is due. -/
theorem due_le_start_succ (h : x.Kept (.new pacing made) n) (hk : k < n) :
    x.origin (.new pacing made) k + pacing.period ≤ x.start (k + 1) := by
  by_cases hp : pacing = .unlimited
  · have horigin := (h.mono (Nat.le_of_lt hk)).origin_le_start
    have hworking := h.working k hk
    have hwaiting := h.waiting k hk
    have hperiod : pacing.period = 0 := by rw [hp]; rfl
    omega
  · have hp : (x.underway (.new pacing made) k).pacing ≠ .unlimited := by simpa using hp
    have hdue := Pacer.due_le_wait hp (x.done k)
    rw [pacing_underway] at hdue
    exact Nat.le_trans hdue (h.waiting k hk)

theorem origin_succ_le (h : x.Kept (.new pacing made) n) (hk : k < n) :
    x.origin (.new pacing made) k + pacing.period ≤ x.origin (.new pacing made) (k + 1) := by
  rcases origin_succ_cases x (.new pacing made) k with ⟨-, -, hmet⟩ | hstart
  · exact Nat.le_of_eq hmet.symm
  · rw [hstart]
    exact h.due_le_start_succ hk

/-- **Origins are a period apart at least.** -/
theorem origin_add_le (h : x.Kept (.new pacing made) (k + n)) :
    x.origin (.new pacing made) k + n * pacing.period ≤ x.origin (.new pacing made) (k + n) := by
  induction n with
  | zero => simp
  | succ n ih =>
    have hbefore := ih (h.mono (by omega))
    have hlast := h.origin_succ_le (k := k + n) (by omega)
    rw [Nat.succ_mul, ← Nat.add_assoc, ← Nat.add_assoc]
    exact Nat.le_trans (Nat.add_le_add_right hbefore _) hlast

end Kept

/-! ### No frame is hurried -/

/-- What pacing promises of the frames up to `n`: on the whole they take their periods, and
what a late start takes from a frame is at most the period of that one. -/
structure Unhurried (x : Schedule) (p : Pacer) (n : Nat) : Prop where
  whole : ∀ j ≤ n, x.start 0 + j * p.pacing.period ≤ x.start j
  truncated : p.pacing = .truncated →
    ∀ k j, k + j ≤ n → x.start k + j * p.pacing.period ≤ x.start (k + j)
  exact : p.pacing = .exact →
    ∀ k j, 1 ≤ j → k + j ≤ n → x.start k + (j - 1) * p.pacing.period ≤ x.start (k + j)
  afterOverrun : p.pacing = .exact → ∀ k j, x.Overran p k → k + 1 + j ≤ n →
    x.start (k + 1) + j * p.pacing.period ≤ x.start (k + 1 + j)

namespace Kept

theorem origin_add_le_start (h : x.Kept (.new pacing made) n) {j : Nat} (hkj : k + j ≤ n) :
    x.origin (.new pacing made) k + j * pacing.period ≤ x.start (k + j) :=
  Nat.le_trans (h.mono hkj).origin_add_le (h.mono hkj).origin_le_start

/-- The next frame is counted from no earlier than this one starts. -/
theorem start_le_origin_succ (h : x.Kept (.new pacing made) n) (hk : k < n) :
    x.start k ≤ x.origin (.new pacing made) (k + 1) := by
  have hworking := h.working k hk
  rcases origin_succ_cases x (.new pacing made) k with ⟨hp, hmet, hnext⟩ | hstart
  · rw [hnext]
    refine Nat.le_trans hworking (Nat.le_of_not_lt fun hlate => hmet (overran_iff.2 ⟨?_, ?_⟩))
    · rw [pacing_underway, hp]
      decide
    · rwa [pacing_underway]
  · rw [hstart]
    exact Nat.le_trans hworking (Nat.le_trans (Nat.le_add_right _ _) (h.waiting k hk))

theorem unhurried (h : x.Kept (.new pacing made) n) : x.Unhurried (.new pacing made) n where
  whole j hj := by
    have := h.origin_add_le_start (k := 0) (j := j) (by omega)
    rwa [origin_zero, Nat.zero_add] at this
  truncated hp k j hkj := by
    have hexact : (Pacer.new pacing made).pacing ≠ .exact := by
      rw [hp]
      decide
    have := h.origin_add_le_start hkj
    rwa [origin_of_ne_exact hexact] at this
  exact _ k j hj hkj := by
    obtain ⟨j, rfl⟩ := Nat.exists_eq_add_of_le' hj
    have hnext := h.start_le_origin_succ (k := k) (by omega)
    have hrest := h.origin_add_le_start (k := k + 1) (j := j) (by omega)
    rw [Nat.add_sub_cancel, ← Nat.add_assoc, Nat.add_right_comm]
    exact Nat.le_trans (Nat.add_le_add_right hnext _) hrest
  afterOverrun _ k j hover hkj := by
    have := h.origin_add_le_start hkj
    rwa [origin_succ_of_missed fun _ => hover] at this

end Kept

end Schedule

end ByteByteJump
