import ByteByteJump.Proofs.Session.Timing

/-! When a frame is reported as an overrun.

A report tells how long the frame took and what its period is, but it is the frame's
due time that decides. The two agree where a frame starts at its origin, as every
frame does with truncated pacing; with exact pacing a frame may start late, and then
it is due a period after its origin all the same. So what is counted is the time a
frame took and its lateness together (`overrun_iff`), and a late frame may be
reported although it took less than its period (`short_frame_reported`). -/
namespace ByteByteJump

namespace Pacer

variable {p : Pacer} {pacing : Pacing} {made t now : Nat}

theorem lateness_of_ne_exact (hp : p.pacing ≠ .exact) : p.lateness = 0 := by
  rw [lateness, origin, if_neg hp, Nat.sub_self]

/-- A frame that is under way is an overrun once its time and its lateness make more than
its period. -/
theorem overdue_iff (h : Driven pacing made true p t) (hnow : t ≤ now) :
    p.Overdue now ↔ pacing ≠ .unlimited ∧ pacing.period < (now - p.frameStart) + p.lateness := by
  have horigin := h.origin_le_frameStart
  have hstart := h.frameStart_eq
  rw [Overdue, h.pacing_eq, lateness]
  refine and_congr_right fun _ => ?_
  omega

/-- A call counts an overrun and logs one line of it, with the time that the frame took and
its period; or it does neither. -/
def Reports (p : Pacer) (now : Nat) (overrun : Prop) : Prop :=
  (overrun ∧ (p.remaining now).1.overruns = p.overruns + 1 ∧
    (p.remaining now).2.2 = [.frameOverran (now - p.frameStart) p.pacing.period]) ∨
  (¬ overrun ∧ (p.remaining now).1.overruns = p.overruns ∧ (p.remaining now).2.2 = [])

theorem reports_overdue (p : Pacer) (now : Nat) : p.Reports now (p.Overdue now) := by
  by_cases h : p.Overdue now
  · exact .inl ⟨h, by rw [remaining_of_overdue h], by rw [remaining_of_overdue h]⟩
  · exact .inr ⟨h, by simp [remaining_of_not_overdue h], by rw [remaining_of_not_overdue h]⟩

end Pacer

namespace Session

/-- **A frame is reported if its time and its lateness make more than its period.** Its time
alone makes more in every such case but one: with exact pacing, if the frame was late and took
its period or less, but not by as much as it was late. The frames of a session in front of a
host that keeps time are frames of this kind, at every moment of every history. -/
theorem overrun_iff (pacing : Pacing) (made : Nat) :
    (∀ (p : Pacer) (t now : Nat), Pacer.Driven pacing made true p t → t ≤ now →
      p.Reports now (pacing ≠ .unlimited ∧ pacing.period < (now - p.frameStart) + p.lateness) ∧
      (pacing ≠ .exact → p.lateness = 0) ∧
      ((p.overruns < (p.remaining now).1.overruns → pacing.period < now - p.frameStart) ↔
        ¬ (pacing = .exact ∧ now - p.frameStart ≤ pacing.period ∧
          pacing.period < (now - p.frameStart) + p.lateness))) ∧
    ∀ {σ : Type} (host : Host σ) (clock : σ → Nat), host.KeepsTime clock →
      ∀ (Change : Machine → Machine → Prop) (m : Machine) (state : σ) (limit : Option Nat)
        (a : Account) (s t : Session σ) (events : List Event),
        Moment host Change (new m state (.new pacing made) limit) a s →
        s.round host = .again t events →
        Pacer.Driven pacing made true (s.pacer.start (s.starting host)) (s.starting host) ∧
          Paced host clock s t events := by
  refine ⟨fun p t now h hnow => ?_, fun host clock hhost Change m state limit a s t events hs hr => ?_⟩
  · have hoverdue := Pacer.overdue_iff h hnow
    have hpacing := h.pacing_eq
    have hlateness : pacing ≠ .exact → p.lateness = 0 := fun hp =>
      Pacer.lateness_of_ne_exact (hpacing.symm ▸ hp)
    refine ⟨propext hoverdue ▸ p.reports_overdue now, hlateness, ?_⟩
    rw [Pacer.overruns_lt_remaining_iff, hoverdue]
    by_cases hp : pacing = .exact
    · simp only [hp]
      constructor
      · rintro h ⟨-, hshort, hlate⟩
        exact absurd (h ⟨nofun, hlate⟩) (Nat.not_lt.2 hshort)
      · rintro h ⟨-, hlate⟩
        exact Nat.lt_of_not_le fun hshort => h ⟨trivial, hshort, hlate⟩
    · rw [hlateness hp, Nat.add_zero]
      constructor
      · rintro - ⟨hexact, -⟩
        exact hp hexact
      · rintro - ⟨-, hlong⟩
        exact hlong
  · have hstart : (new m state (.new pacing made) limit).InTime clock pacing made :=
      ⟨false, 0, .new, Nat.zero_le _⟩
    exact ⟨(hs.inTime hhost hstart).starts hhost, round_paced hhost hr⟩

/-- The second frame of a loop with exact pacing, which woke 50 µs late. -/
def wokenLate : Pacer := ⟨.exact, 16716666, some 16666666, false, 0⟩

theorem driven_wokenLate : Pacer.Driven .exact 0 true wokenLate 16716666 :=
  .start (.done (.start .new (Nat.le_refl 0)) (Nat.le_refl 0)) (by decide)

/-- Its work takes 10 ms, and the late start is not reported. -/
theorem late_waking_absorbed :
    Pacer.Driven .exact 0 true wokenLate 16716666 ∧ wokenLate.lateness = 50000 ∧
      wokenLate.Reports 26716666 False := by
  have h := ((overrun_iff .exact 0).1 wokenLate 16716666 26716666 driven_wokenLate (by decide)).1
  have hfew : ¬ (Pacing.exact ≠ .unlimited ∧
      Pacing.exact.period < (26716666 - wokenLate.frameStart) + wokenLate.lateness) := by decide
  rw [eq_false hfew] at h
  exact ⟨driven_wokenLate, by decide, h⟩

/-- Its work takes 16.65 ms, which is less than the period, and it is reported. -/
theorem short_frame_reported :
    Pacer.Driven .exact 0 true wokenLate 16716666 ∧
      (wokenLate.remaining 33366666).1.overruns = wokenLate.overruns + 1 ∧
      (wokenLate.remaining 33366666).2.2.map Notice.text =
        ["frame overran: took 16.65ms, period 16.666666ms"] ∧
      ¬ Pacing.exact.period < 33366666 - wokenLate.frameStart :=
  ⟨driven_wokenLate, by decide, by decide, by decide⟩

end Session

end ByteByteJump
