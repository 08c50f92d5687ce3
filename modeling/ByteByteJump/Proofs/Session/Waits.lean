import ByteByteJump.Proofs.Pacer.Calls
import ByteByteJump.Proofs.Session.Cadence

/-! No wait is longer than a period.

With exact pacing each question moves the deadline on by a period, whether the frame was
completed or not, and a start leaves it where it is if it was met. A caller that asked again
and again would be told of longer and longer waits. A frame loop does not: it asks once for a
start and lets the wait go by before the next one, though it may start frames that it then
gives up. A history of this kind is `Timely`, and it drives the pacer in time
(`Timely.exists_driven`). So the deadline before is never ahead of a frame that starts, and
what is left of the frame is left of one period. -/
namespace ByteByteJump

namespace Pacer

variable {p : Pacer} {pacing : Pacing} {made t now : Nat} {c : Call} {history rest : List Call}

/-! ### Timely histories -/

/-- The instant of a call. -/
def Call.instant : Call → Nat
  | start now => now
  | remaining now => now

/-- A history as a frame loop makes it, with frames given up and with pauses of any length. -/
structure Timely (p : Pacer) (history : List Call) : Prop where
  forward : history.Pairwise fun c d => c.instant ≤ d.instant
  /-- Every question follows a start that came after the question before. -/
  started : ∀ before now rest, history = before ++ .remaining now :: rest →
    ∃ earlier t since, before = earlier ++ .start t :: since ∧ ∀ c ∈ since, c.isRemaining = false
  /-- No start comes before the wait is over that the question before it was told. -/
  waited : ∀ before asked between now rest,
    history = before ++ .remaining asked :: (between ++ .start now :: rest) →
    (∀ c ∈ between, c.isRemaining = false) →
    asked + ((p.after before).remaining asked).2.1 ≤ now

namespace Timely

theorem of_append (h : p.Timely (history ++ rest)) : p.Timely history where
  forward := (List.pairwise_append.1 h.forward).1
  started before now after hsplit := h.started before now (after ++ rest) (by simp [hsplit])
  waited before asked between now after hsplit :=
    h.waited before asked between now (after ++ rest) (by simp [hsplit])

theorem instant_le (h : p.Timely (history ++ [c])) : ∀ d ∈ history, d.instant ≤ c.instant :=
  fun d hd => (List.pairwise_append.1 h.forward).2.2 d hd c (List.mem_singleton_self c)

/-- The call before a question is a start. -/
theorem exists_start (h : p.Timely (history ++ [.remaining now])) :
    ∃ earlier t, history = earlier ++ [.start t] := by
  obtain ⟨earlier, t, since, rfl, hsince⟩ := h.started history now [] rfl
  obtain rfl | ⟨more, c, rfl⟩ := since.eq_nil_or_concat'
  · exact ⟨earlier, t, rfl⟩
  · cases c with
    | start s => exact ⟨earlier ++ .start t :: more, s, by simp⟩
    | remaining s => cases hsince (.remaining s) (by simp)

/-- A timely history drives a new pacer in time, and so does any call that it may go on with. -/
theorem exists_driven (h : (new pacing made).Timely history) :
    ∃ busy t, Driven pacing made busy ((new pacing made).after history) t ∧
      ∀ c, (new pacing made).Timely (history ++ [c]) →
        t ≤ c.instant ∧ (c.isRemaining = true → busy = true) := by
  induction history using List.reverseRecOn with
  | nil =>
    refine ⟨false, 0, .new, fun c hc => ⟨Nat.zero_le _, fun hasked => ?_⟩⟩
    cases c with
    | start now => cases hasked
    | remaining now =>
      obtain ⟨earlier, t, hnil⟩ := hc.exists_start
      simp at hnil
  | append_singleton history c ih =>
    obtain ⟨busy, t, hdriven, hnext⟩ := ih h.of_append
    obtain ⟨hnow, hbusy⟩ := hnext c h
    rw [after_append, after_singleton]
    cases c with
    | start now =>
      exact ⟨true, now, hdriven.start hnow, fun d hd =>
        ⟨hd.instant_le (.start now) (by simp), fun _ => rfl⟩⟩
    | remaining now =>
      cases hbusy rfl
      refine ⟨false, _, hdriven.done hnow, fun d hd => ?_⟩
      cases d with
      | start next => exact ⟨hd.waited history now [] next [] (by simp) nofun, nofun⟩
      | remaining next =>
        obtain ⟨earlier, t, hlast⟩ := hd.exists_start
        cases (List.append_singleton_inj.1 hlast).2

end Timely

/-! ### What a question is told -/

/-- What is left of a frame is at most its period. -/
theorem left_le_period (h : Driven pacing made true p t) (hnow : t ≤ now) :
    (p.remaining now).2.1 ≤ pacing.period := by
  have horigin := h.origin_le_frameStart
  have hstart := h.frameStart_eq
  have hpacing := h.pacing_eq
  rw [left_remaining, hpacing]
  split
  next => exact Nat.zero_le _
  next => omega

/-- Where something is left nothing is overdue. -/
theorem not_overdue_of_left (h : (p.remaining now).2.1 ≠ 0) : ¬ p.Overdue now := by
  intro hover
  rw [remaining_of_overdue hover] at h
  exact h rfl

/-- A wait of one period at most, and none together with an overrun. -/
structure Moderate (period : Nat) (p : Pacer) (now : Nat) : Prop where
  left_le : (p.remaining now).2.1 ≤ period
  inTime : (p.remaining now).2.1 ≠ 0 →
    (p.remaining now).1.overruns = p.overruns ∧ (p.remaining now).2.2 = []

theorem moderate_of_driven (h : Driven pacing made true p t) (hnow : t ≤ now) :
    Moderate pacing.period p now where
  left_le := left_le_period h hnow
  inTime hleft := by
    have hmet := not_overdue_of_left hleft
    rw [remaining_of_not_overdue hmet]
    exact ⟨overruns_advance _, rfl⟩

theorem Timely.moderate (h : (new pacing made).Timely (history ++ .remaining now :: rest)) :
    Moderate pacing.period ((new pacing made).after history) now := by
  rw [List.append_cons] at h
  have hasked := h.of_append
  obtain ⟨busy, t, hdriven, hnext⟩ := hasked.of_append.exists_driven
  obtain ⟨hnow, hbusy⟩ := hnext (.remaining now) hasked
  cases hbusy rfl
  exact moderate_of_driven hdriven hnow

end Pacer

namespace Session

/-- **No wait is longer than a period**, and one that lasts follows no overrun. So it is for
every question of a timely history with a new pacer, whatever the pacing, and for every round
of a frame loop in front of a host that keeps time, at every moment of a history of frames and
runs, those that were cut short among them. -/
theorem waits_at_most_period (pacing : Pacing) (made : Nat) :
    (∀ before now rest, (Pacer.new pacing made).Timely (before ++ .remaining now :: rest) →
      Pacer.Moderate pacing.period ((Pacer.new pacing made).after before) now) ∧
    ∀ {σ : Type} (host : Host σ) (clock : σ → Nat), host.KeepsTime clock →
      ∀ (Change : Machine → Machine → Prop) (m : Machine) (state : σ) (limit : Option Nat)
        (a : Account) (s t : Session σ) (events : List Event),
        Moment host Change (new m state (.new pacing made) limit) a s →
        s.round host = .again t events →
        Pacer.Moderate pacing.period (s.pacer.start (s.starting host)) (s.finishing host) ∧
          Paced host clock s t events := by
  refine ⟨fun before now rest h => h.moderate, fun host clock hhost Change m state limit a s t
    events hs hr => ?_⟩
  have hstart : (new m state (.new pacing made) limit).InTime clock pacing made :=
    ⟨false, 0, .new, Nat.zero_le _⟩
  have hpaced := round_paced hhost hr
  exact ⟨Pacer.moderate_of_driven ((hs.inTime hhost hstart).starts hhost) hpaced.worked, hpaced⟩

/-- With exact pacing: a frame that overran, and one that was given up and started again. -/
def resumed : List Pacer.Call :=
  [.start 0, .remaining 20000000, .start 20000000, .start 21000000]

theorem timely_resumed : (Pacer.new .exact 0).Timely (resumed ++ [.remaining 22000000]) where
  forward := by decide
  started before now rest h := by
    have hbefore : before = [.start 0] ∨ before = resumed := by
      simp [resumed, List.cons_eq_append_iff] at h ⊢
      grind
    obtain rfl | rfl := hbefore
    · exact ⟨[], 0, [], rfl, nofun⟩
    · exact ⟨[.start 0, .remaining 20000000, .start 20000000], 21000000, [], rfl, nofun⟩
  waited before asked between now rest h hbetween := by
    have hlast : before = [.start 0] ∧ asked = 20000000 ∧ 20000000 ≤ now := by
      simp [resumed, List.cons_eq_append_iff] at h
      have hstart : Pacer.Call.start now ∈ between ++ .start now :: rest := by simp
      grind
    obtain ⟨rfl, rfl, hnow⟩ := hlast
    have hgone : (((Pacer.new .exact 0).after [.start 0]).remaining 20000000).2.1 = 0 := by decide
    rw [hgone]
    omega

/-- The given-up frame had the deadline set before it, and less than a period is left of it. A
loop of one frame waits for a period at most as well. -/
theorem resumed_waits :
    (Pacer.new .exact 0).Timely (resumed ++ [.remaining 22000000]) ∧
      (((Pacer.new .exact 0).after resumed).remaining 22000000).2.1 = 14666666 ∧
      Pacer.Moderate 16666666 ((Pacer.new .exact 0).after resumed) 22000000 ∧
      Pacer.Moderate 16666666 ((single .blank .released).pacer.start 0)
        ((single .blank .released).finishing Script.host) := by
  obtain ⟨hhistories, hloops⟩ := waits_at_most_period .exact 0
  obtain ⟨t, events, hround⟩ := goesOn_single_blank 0 Nat.one_pos
  have hstart : Moment Script.host (fun _ _ => False) (single .blank .released) .empty
      (single .blank .released) := .settled .start
  exact ⟨timely_resumed, by decide, hhistories _ _ [] timely_resumed,
    (hloops Script.host Script.clock keepsTime_script _ _ _ _ _ _ _ _ hstart hround).1⟩

end Session

end ByteByteJump
