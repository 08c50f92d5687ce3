import ByteByteJump.Host.Script
import ByteByteJump.Proofs.Machine.FullMemory
import ByteByteJump.Proofs.Machine.Waiting
import ByteByteJump.Proofs.Session.Timing

/-! The frame loop never runs fast.

The instants that a frame loop reads from its clock, two in each round, make a
schedule (`readings`), and in front of a host that keeps time the loop keeps it
(`readings_kept`). Whatever keeps a schedule is unhurried: the frames take their
periods, however long the work takes, however late the loop wakes, and after an
overrun no frame is shortened to catch up. Both halves are `frames_never_hurried`. -/
namespace ByteByteJump.Session

variable {σ : Type} {host : Host σ} {clock : σ → Nat} {s : Session σ} {k n : Nat}

/-- The session after a round; where the round ends the loop, the session it leaves. -/
def afterRound (host : Host σ) (s : Session σ) : Session σ :=
  match s.round host with
  | .again t _ => t
  | .over o => o.session

/-- The session after `k` rounds. -/
def afterRounds (host : Host σ) (s : Session σ) : Nat → Session σ
  | 0 => s
  | k + 1 => (s.afterRounds host k).afterRound host

/-- The loop goes on after the first `n` rounds. -/
def GoesOn (host : Host σ) (s : Session σ) (n : Nat) : Prop :=
  ∀ k < n, ∃ t events, (s.afterRounds host k).round host = .again t events

/-- The instants that the loop reads from the clock. -/
def readings (host : Host σ) (s : Session σ) : Schedule where
  start k := (s.afterRounds host k).starting host
  done k := (s.afterRounds host k).finishing host

theorem afterRounds_paced (hhost : host.KeepsTime clock) (h : s.GoesOn host n) (hk : k < n) :
    ∃ events,
      Paced host clock (s.afterRounds host k) (s.afterRounds host (k + 1)) events := by
  obtain ⟨t, events, hround⟩ := h k hk
  have hnext : s.afterRounds host (k + 1) = t := by rw [afterRounds, afterRound, hround]
  rw [hnext]
  exact ⟨events, round_paced hhost hround⟩

/-- The pacer of the schedule is that of the session, round by round. -/
theorem pacer_readings (hhost : host.KeepsTime clock) (h : s.GoesOn host n) (hk : k ≤ n) :
    (s.readings host).pacer s.pacer k = (s.afterRounds host k).pacer := by
  induction k with
  | zero => rfl
  | succ k ih =>
    obtain ⟨_, hpaced⟩ := afterRounds_paced hhost h hk
    rw [hpaced.pacer, Schedule.pacer_succ, Schedule.underway, ih (Nat.le_of_succ_le hk)]
    rfl

theorem readings_kept (hhost : host.KeepsTime clock) (h : s.GoesOn host n) :
    (s.readings host).Kept s.pacer n where
  working k hk := by
    obtain ⟨_, hpaced⟩ := afterRounds_paced hhost h hk
    exact hpaced.worked
  waiting k hk := by
    obtain ⟨_, hpaced⟩ := afterRounds_paced hhost h hk
    have hwait : (s.readings host).wait s.pacer k = ((s.afterRounds host k).paced host).2.1 := by
      rw [Schedule.wait, Schedule.underway, pacer_readings hhost h (Nat.le_of_lt hk)]
      rfl
    rw [hwait]
    exact Nat.le_trans hpaced.waited (hhost.now _).1

/-- **The frame loop never runs fast and never catches up.** Frames that follow one
another with a new pacer, each after the wait of the one before, are unhurried. The
frame loop makes them so follow, in front of any host that keeps time: the pacer of the
session is that of the schedule of its readings, which it keeps. -/
theorem frames_never_hurried (pacing : Pacing) (made : Nat) :
    (∀ (x : Schedule) (n : Nat), x.Kept (.new pacing made) n → x.Unhurried (.new pacing made) n) ∧
    ∀ {σ : Type} (host : Host σ) (clock : σ → Nat), host.KeepsTime clock →
      ∀ (s : Session σ) (n : Nat), s.pacer = .new pacing made → s.GoesOn host n →
        (s.readings host).Kept (.new pacing made) n ∧
        (∀ k ≤ n, (s.readings host).pacer (.new pacing made) k = (s.afterRounds host k).pacer) ∧
        (s.readings host).Unhurried (.new pacing made) n := by
  refine ⟨fun x n hx => hx.unhurried, fun host clock hhost s n hs h => ?_⟩
  rw [← hs]
  have hkept := readings_kept hhost h
  refine ⟨hkept, fun k hk => pacer_readings hhost h hk, ?_⟩
  rw [hs] at hkept ⊢
  exact hkept.unhurried

/-! ### A loop and a schedule -/

theorem keepsTime_script : Script.host.KeepsTime Script.clock where
  poll s := by
    show s.clock ≤ s.poll.2.clock
    unfold Script.poll
    split <;> exact Nat.le_add_right _ _
  present _ _ := Nat.le_refl _
  play _ _ := Nat.le_refl _
  now _ := ⟨Nat.le_refl _, Nat.le_refl _⟩
  sleep _ _ := Nat.le_refl _

/-- A machine in front of a host that asks for one frame. -/
def single (m : Machine) (keys : Keypad) : Session Script :=
  new m ⟨[.ok ⟨true, keys⟩], [], [], 0, 0⟩ (.new .exact 0) none

theorem goesOn_single {m n : Machine} {keys : Keypad} (hm : m.frame keys = (n, .ok ()))
    {picture sound : ByteArray} (hp : n.picture? = some picture) (ha : n.sound? = some sound) :
    (single m keys).GoesOn Script.host 1 := by
  intro k hk
  obtain rfl : k = 0 := Nat.lt_one_iff.1 hk
  have hlive : ((single m keys).asked Script.host).standing.Live := nofun
  have hframe : ((single m keys).asked Script.host).frame Script.host keys = _ :=
    frame_of_taken hlive hm hp ha rfl rfl
  show ∃ t events, playFrame Script.host keys ((single m keys).asked Script.host) = .again t events
  rw [playFrame, hframe]
  exact ⟨_, _, rfl⟩

theorem goesOn_single_blank : (single .blank .released).GoesOn Script.host 1 := by
  have hfull : Machine.blank.Full := Memory.size_blank _
  have hframe := Machine.frame_of_waiting hfull.five_le Machine.fetch_start_blank
  have hshown := Machine.full_frame .released hfull
  rw [hframe] at hshown
  obtain ⟨picture, hp⟩ := Machine.exists_picture (Machine.picture_le_of_full hshown)
  obtain ⟨sound, ha⟩ := Machine.exists_sound (Machine.sound_le_of_full hshown)
  exact goesOn_single hframe hp ha

/-- Four frames: one that overruns, one that waits, one that starts late and is short for it,
and the start of the next. -/
def uneven : Schedule where
  start k := [0, 20000000, 50000000, 53333332].getD k 0
  done k := [20000000, 20000000, 51000000].getD k 0

/-- With exact pacing: after the overrun the frames take their periods, and the late start is
made up for by the next frame alone. A loop of one frame takes its period as well. -/
theorem uneven_never_hurried :
    uneven.Kept (.new .exact 0) 3 ∧ uneven.Overran (.new .exact 0) 0 ∧
      uneven.Unhurried (.new .exact 0) 3 ∧
      uneven.start 1 + 2 * 16666666 ≤ uneven.start 3 ∧
      uneven.start 3 < uneven.start 2 + 16666666 ∧
      ((single .blank .released).readings Script.host).start 0 + Pacing.exact.period ≤
        ((single .blank .released).readings Script.host).start 1 := by
  obtain ⟨hschedules, hloops⟩ := frames_never_hurried .exact 0
  have hkept : uneven.Kept (.new .exact 0) 3 := ⟨by decide, by decide⟩
  have hoverran : uneven.Overran (.new .exact 0) 0 := by
    unfold Schedule.Overran
    decide
  have hunhurried := hschedules uneven 3 hkept
  obtain ⟨-, -, hloop⟩ := hloops Script.host Script.clock keepsTime_script (single .blank .released) 1
    rfl goesOn_single_blank
  have hwhole := hloop.whole 1 (Nat.le_refl 1)
  rw [Nat.one_mul] at hwhole
  exact ⟨hkept, hoverran, hunhurried, hunhurried.afterOverrun rfl 0 2 hoverran (by decide), by decide,
    hwhole⟩

end ByteByteJump.Session
