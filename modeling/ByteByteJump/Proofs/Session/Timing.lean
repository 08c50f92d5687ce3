import ByteByteJump.Proofs.Pacer.Schedule
import ByteByteJump.Proofs.Session.History

/-! The time that a session takes.

A host keeps time if its clock never goes back and a sleep lasts at least as long as
it was asked for (`Host.KeepsTime`). In front of such a host a session drives its
pacer in time: each round of the frame loop starts a frame, and, if it goes on, asks
what is left of the period and sleeps through it (`round_paced`). So it is at every
moment of every history (`Moment.inTime`). -/
namespace ByteByteJump

variable {σ : Type} {host : Host σ} {clock : σ → Nat} {s t : Session σ}

/-- A host that keeps time, as a clock of its own shows it. -/
structure Host.KeepsTime (host : Host σ) (clock : σ → Nat) : Prop where
  poll : ∀ s, clock s ≤ clock (host.poll s).2
  present : ∀ picture s, clock s ≤ clock (host.present picture s).2
  play : ∀ sound s, clock s ≤ clock (host.play sound s).2
  now : ∀ s, clock s ≤ (host.now s).1 ∧ (host.now s).1 ≤ clock (host.now s).2
  sleep : ∀ span s, clock s + span ≤ clock (host.sleep span s)

/-- A wait lasts until the frame's period is used up. -/
theorem Pacer.clock_wait (hhost : host.KeepsTime clock) (p : Pacer) (a : σ) :
    (host.now a).1 + (p.remaining (host.now a).1).2.1 ≤ clock (p.wait host a).2.1 := by
  have hnow := (hhost.now a).2
  unfold Pacer.wait
  simp only
  split
  next hleft =>
    rw [hleft]
    exact hnow
  next => exact Nat.le_trans (Nat.add_le_add_right hnow _) (hhost.sleep _ _)

namespace Session

/-- Time goes by, and the pacer is not called. -/
structure Passes (clock : σ → Nat) (s t : Session σ) : Prop where
  pacer : t.pacer = s.pacer
  clock : clock s.host ≤ clock t.host

theorem Passes.trans {u : Session σ} (h : Passes clock s t) (h' : Passes clock t u) :
    Passes clock s u :=
  ⟨h'.pacer.trans h.pacer, Nat.le_trans h.clock h'.clock⟩

/-! ### A frame -/

theorem playSound_passes (hhost : host.KeepsTime clock) (s : Session σ) :
    Passes clock s (s.playSound host).session := by
  unfold playSound
  split
  next => exact ⟨rfl, Nat.le_refl _⟩
  next sound _ =>
    have hplay := hhost.play sound s.host
    split
    next heq =>
      rw [heq] at hplay
      exact ⟨rfl, hplay⟩
    next heq =>
      rw [heq] at hplay
      exact ⟨rfl, hplay⟩

theorem deliver_passes (hhost : host.KeepsTime clock) (s : Session σ) :
    Passes clock s (s.deliver host).session := by
  unfold deliver
  split
  next => exact ⟨rfl, Nat.le_refl _⟩
  next picture _ =>
    have hpresent := hhost.present picture s.host
    split
    next heq =>
      rw [heq] at hpresent
      exact ⟨rfl, hpresent⟩
    next state heq =>
      rw [heq] at hpresent
      exact Passes.trans (t := { s with host := state }) ⟨rfl, hpresent⟩
        (playSound_passes hhost _)

theorem frame_passes (hhost : host.KeepsTime clock) (keys : Keypad) (s : Session σ) :
    Passes clock s (s.frame host keys).session := by
  rcases s.standing.live_or_aborted with hs | ⟨f, hf⟩
  · rw [frame_of_live hs]
    split
    next => exact ⟨rfl, Nat.le_refl _⟩
    next => exact ⟨rfl, Nat.le_refl _⟩
    next machine _ =>
      have := deliver_passes hhost { s with machine, phase := .idle }
      exact ⟨this.pacer, this.clock⟩
  · rw [frame_of_aborted hf]
    exact ⟨rfl, Nat.le_refl _⟩

/-! ### A round -/

/-- The instant at which a round starts its frame. -/
def starting (host : Host σ) (s : Session σ) : Nat := (host.now s.host).1

/-- The session when the frame of a round has had its output taken, before the wait. -/
def worked (host : Host σ) (s : Session σ) : Session σ :=
  match s.polled host with
  | .ok input => ((s.asked host).frame host input.keys).session
  | .error _ => s.asked host

/-- The instant at which a round asks what is left of its period. -/
def finishing (host : Host σ) (s : Session σ) : Nat := (host.now (s.worked host).host).1

/-- The frame of a round, as its pacer sees it. -/
def paced (host : Host σ) (s : Session σ) : Pacer × Nat × List Notice :=
  (s.pacer.start (s.starting host)).remaining (s.finishing host)

/-- A round that goes on: it starts a frame, does the frame's work, asks what is left of
the period and waits for so long. -/
structure Paced (host : Host σ) (clock : σ → Nat) (s t : Session σ) (events : List Event) :
    Prop where
  pacer : t.pacer = (s.paced host).1
  started : clock s.host ≤ s.starting host
  worked : s.starting host ≤ s.finishing host
  waited : s.finishing host + (s.paced host).2.1 ≤ clock t.host
  logged : ∃ early, events = early ++ (s.paced host).2.2.map .notice

theorem clock_asked (hhost : host.KeepsTime clock) (s : Session σ) :
    s.starting host ≤ clock (s.asked host).host :=
  Nat.le_trans (hhost.now s.host).2 (hhost.poll _)

/-- A frame of the loop ends it, or is followed by a wait. -/
theorem playFrame_timed (host : Host σ) (keys : Keypad) (s : Session σ) :
    (∃ events result, playFrame host keys s = .over ⟨(s.frame host keys).session, events, result⟩) ∨
    ∃ events, playFrame host keys s = waitOut host (s.frame host keys).session events := by
  unfold playFrame
  split
  next heq =>
    rw [heq]
    exact .inr ⟨_, rfl⟩
  next heq =>
    rw [heq]
    exact .inl ⟨_, _, rfl⟩

/-- The wait of a round, from the session whose frame it has worked. -/
theorem waitOut_paced (hhost : host.KeepsTime clock) (early : List Event)
    (h : Passes clock (s.asked host) (s.worked host)) :
    ∃ t events, waitOut host (s.worked host) early = .again t events ∧
      Paced host clock s t events := by
  have hstart : (s.worked host).pacer = s.pacer.start (s.starting host) := h.pacer
  have hwaits : (s.worked host).pacer.remaining (s.finishing host) = s.paced host := by
    rw [hstart, paced]
  refine ⟨_, _, rfl, congrArg Prod.fst hwaits, (hhost.now s.host).1, ?_, ?_, early,
    congrArg (fun w => early ++ w.2.2.map Event.notice) hwaits⟩
  · exact Nat.le_trans (clock_asked hhost s)
      (Nat.le_trans h.clock (hhost.now (s.worked host).host).1)
  · rw [← hwaits]
    exact Pacer.clock_wait hhost (s.worked host).pacer (s.worked host).host

/-- A round that ends the loop has started a frame's period at most; one that goes on is
paced. -/
theorem round_timed (hhost : host.KeepsTime clock) (s : Session σ) :
    (∃ o, s.round host = .over o ∧
      (Passes clock s o.session ∨ Passes clock (s.asked host) o.session)) ∨
    ∃ t events, s.round host = .again t events ∧ Paced host clock s t events := by
  have hidle (t : Session σ) : Passes clock t t := ⟨rfl, Nat.le_refl _⟩
  unfold round
  split
  next => exact .inl ⟨_, rfl, .inl (hidle s)⟩
  next =>
    rw [pollFrame_eq]
    cases hpolled : s.polled host with
    | error e => exact .inl ⟨_, rfl, .inr (hidle _)⟩
    | ok input =>
      simp only
      split
      next =>
        have hpasses := frame_passes hhost input.keys (s.asked host)
        have hworked : ((s.asked host).frame host input.keys).session = s.worked host := by
          rw [worked, hpolled]
        rcases playFrame_timed host input.keys (s.asked host) with
          ⟨events, result, hover⟩ | ⟨early, hwait⟩
        · exact .inl ⟨_, hover, .inr hpasses⟩
        · rw [hwait, hworked]
          exact .inr (waitOut_paced hhost early (hworked ▸ hpasses))
      next => exact .inl ⟨_, rfl, .inr (hidle _)⟩

theorem round_paced (hhost : host.KeepsTime clock) {events : List Event}
    (h : s.round host = .again t events) : Paced host clock s t events := by
  rcases round_timed hhost s with ⟨o, ho, -⟩ | ⟨t, events, hround, hpaced⟩
  · cases ho.symm.trans h
  · cases hround.symm.trans h
    exact hpaced

/-! ### Runs and histories -/

/-- The pacer has been driven in time up to now. -/
def InTime (clock : σ → Nat) (pacing : Pacing) (made : Nat) (s : Session σ) : Prop :=
  ∃ busy t, Pacer.Driven pacing made busy s.pacer t ∧ t ≤ clock s.host

variable {pacing : Pacing} {made : Nat}

theorem InTime.passes (h : s.InTime clock pacing made) (hst : Passes clock s t) :
    t.InTime clock pacing made := by
  obtain ⟨busy, now, hdriven, hnow⟩ := h
  refine ⟨busy, now, ?_, Nat.le_trans hnow hst.clock⟩
  rwa [hst.pacer]

/-- The frame that a round starts is started in time. -/
theorem InTime.starts (hhost : host.KeepsTime clock) (h : s.InTime clock pacing made) :
    Pacer.Driven pacing made true (s.pacer.start (s.starting host)) (s.starting host) := by
  obtain ⟨_, now, hdriven, hnow⟩ := h
  exact .start hdriven (Nat.le_trans hnow (hhost.now s.host).1)

theorem InTime.asked (hhost : host.KeepsTime clock) (h : s.InTime clock pacing made) :
    (s.asked host).InTime clock pacing made :=
  ⟨true, s.starting host, h.starts hhost, clock_asked hhost s⟩

theorem InTime.over (hhost : host.KeepsTime clock) (h : s.InTime clock pacing made)
    {o : Outcome σ} (hr : s.round host = .over o) : o.session.InTime clock pacing made := by
  rcases round_timed hhost s with ⟨o, ho, hpasses | hpasses⟩ | ⟨t, events, hround, -⟩
  · cases ho.symm.trans hr
    exact h.passes hpasses
  · cases ho.symm.trans hr
    exact (h.asked hhost).passes hpasses
  · cases hround.symm.trans hr

theorem InTime.again (hhost : host.KeepsTime clock) (h : s.InTime clock pacing made)
    {events : List Event} (hr : s.round host = .again t events) : t.InTime clock pacing made := by
  have hpaced := round_paced hhost hr
  refine ⟨false, _, ?_, hpaced.waited⟩
  rw [hpaced.pacer]
  exact .done (h.starts hhost) hpaced.worked

theorem InTime.rounds (hhost : host.KeepsTime clock) {fuel : Nat} {o : Outcome σ}
    (h : s.InTime clock pacing made) (ho : s.rounds host fuel = some o) :
    o.session.InTime clock pacing made := by
  induction fuel generalizing s o with
  | zero => cases ho
  | succ fuel ih =>
    rw [Session.rounds] at ho
    rcases hr : s.round host with last | ⟨t, events⟩
    · simp only [hr, Option.some.injEq] at ho
      exact ho ▸ h.over hhost hr
    · simp only [hr, Option.map_eq_some_iff] at ho
      obtain ⟨last, hlast, rfl⟩ := ho
      have hend := ih (h.again hhost hr) hlast
      exact hend

end Session

/-- **Every history drives the pacer in time**, and every moment of it does. -/
theorem History.inTime (hhost : host.KeepsTime clock) {Change : Machine → Machine → Prop}
    {pacing : Pacing} {made : Nat} {events : List Event} {a : Account}
    (h : History host Change s events a t) (hs : s.InTime clock pacing made) :
    t.InTime clock pacing made := by
  induction h with
  | start => exact hs
  | run _ ho ih =>
    obtain ⟨last, hlast, rfl⟩ := Option.map_eq_some_iff.1 ho
    have hend := ih.rounds hhost hlast
    exact hend
  | frame _ keys ih => exact ih.passes (Session.frame_passes hhost keys _)
  | change _ _ ih => exact ih.passes ⟨rfl, Nat.le_refl _⟩

theorem Moment.inTime (hhost : host.KeepsTime clock) {Change : Machine → Machine → Prop}
    {pacing : Pacing} {made : Nat} {a : Account} (h : Moment host Change s a t)
    (hs : s.InTime clock pacing made) : t.InTime clock pacing made := by
  induction h with
  | settled h => exact h.inTime hhost hs
  | round _ hr ih => exact ih.again hhost hr

end ByteByteJump
