import ByteByteJump.Host.Script
import ByteByteJump.Proofs.Machine.Frame
import ByteByteJump.Proofs.Session.History

/-! Aborted is for good, and marks the first fault.

Whatever is done to a session and to its machine, the session is aborted exactly
when one of its frames faulted, and by the first fault (`aborted_iff_faulted`).
The log has one line of an error then, and none before. What is left of an
aborted session (`Ended`) refuses frames and answers a run from the limit and
one poll; repairing its program does not bring it back. -/
namespace ByteByteJump

/-! ### The first fault -/

namespace Standing

variable {x : Standing} {keys : Keypad} {m : Machine} {f : Fault}

theorem alarm?_of_faulted (hm : x.machine.frame keys = (m, .error (.failed f))) :
    (x.attempt keys).alarm? = some (.frameAborted x.frames m.executed f) := by
  have hf : (x.attempt keys).fault? = some f := Attempt.fault?_eq_some_iff.2 (by rw [attempt, hm])
  rw [Attempt.alarm?, hf]
  simp only [attempt, hm, Option.map_some]

theorem alarm?_of_quiet (hm : ∀ f, (x.machine.frame keys).2 ≠ .error (.failed f)) :
    (x.attempt keys).alarm? = none := by
  have hf : (x.attempt keys).fault? = none :=
    Option.eq_none_iff_forall_ne_some.2 fun f hf => hm f (Attempt.fault?_eq_some_iff.1 hf)
  rw [Attempt.alarm?, hf, Option.map_none]

end Standing

namespace Attempt

/-- The fault that ends a session with these attempts. -/
def firstFault? (attempts : List Attempt) : Option Fault := attempts.findSome? fault?

/-- The line for that fault. -/
def firstAlarm? (attempts : List Attempt) : Option Notice := attempts.findSome? alarm?

theorem firstAlarm?_eq_none {attempts : List Attempt} (h : firstFault? attempts = none) :
    firstAlarm? attempts = none := by
  rw [firstFault?, List.findSome?_eq_none_iff] at h
  rw [firstAlarm?, List.findSome?_eq_none_iff]
  intro a ha
  rw [alarm?, h a ha, Option.map_none]

end Attempt

/-- A session's standing and its errors tell the first fault. -/
structure Marks (a : Account) (ns : List Notice) (x : Standing) : Prop where
  phase : ∀ f, x.phase = .aborted f ↔ Attempt.firstFault? a.attempts = some f
  log : ns = (Attempt.firstAlarm? a.attempts).toList

namespace Marks

variable {a b : Account} {ns ms : List Notice} {x y : Standing} {keys : Keypad}
  {r : Except (Stop Failure) Unit}

theorem start (hx : x.Live) : Marks .empty [] x :=
  ⟨fun f => ⟨fun h => absurd h (hx f), nofun⟩, rfl⟩

theorem firstFault?_of_live (h : Marks a ns x) (hx : x.Live) :
    Attempt.firstFault? a.attempts = none := by
  cases hf : Attempt.firstFault? a.attempts with
  | none => rfl
  | some f => exact absurd ((h.phase f).2 hf) (hx f)

/-- One more attempt, and none of those before it faulted. -/
theorem attempted (h : Marks a ns x) (hx : x.Live) {t : Attempt}
    (hphase : ∀ f, y.phase = .aborted f ↔ t.fault? = some f) (hlog : ms = t.alarm?.toList)
    (hb : b.attempts = [t]) : Marks (a ++ b) (ns ++ ms) y := by
  have hpast := h.firstFault?_of_live hx
  have hquiet := Attempt.firstAlarm?_eq_none hpast
  have hns := h.log
  rw [hquiet] at hns
  rw [Attempt.firstFault?] at hpast
  rw [Attempt.firstAlarm?] at hquiet
  constructor
  · intro f
    rw [hphase, Attempt.firstFault?, Account.attempts_append, hb, List.findSome?_append, hpast]
    simp
  · rw [hns, hlog, Attempt.firstAlarm?, Account.attempts_append, hb, List.findSome?_append,
      hquiet]
    simp

theorem frame (h : Marks a ns x) (hf : FrameCourse keys x b ms y r) :
    Marks (a ++ b) (ns ++ ms) y := by
  cases hf with
  | refused => simpa using h
  | stuck hx hm =>
    refine h.attempted hx ?_ ?_ rfl
    · intro f
      simp [Attempt.fault?_eq_some_iff, Standing.attempt, hm]
    · rw [Standing.alarm?_of_quiet (by simp [hm]), Option.toList_none]
  | faulted hx hm =>
    refine h.attempted hx ?_ ?_ rfl
    · intro f
      simp [Attempt.fault?_eq_some_iff, Standing.attempt, hm]
    · rw [Standing.alarm?_of_faulted hm, Option.toList_some]
  | delivered hx hm =>
    refine h.attempted hx ?_ ?_ rfl
    · intro f
      simp [Attempt.fault?_eq_some_iff, Standing.attempt, hm]
    · rw [Standing.alarm?_of_quiet (by simp [hm]), Option.toList_none]

theorem of_history {σ : Type} {host : Host σ} {Change : Machine → Machine → Prop}
    {s t : Session σ} {events : List Event} (hs : s.standing.Live)
    (h : History host Change s events a t) : Marks a (errors events) t.standing := by
  refine h.keeps ?poll ?frame ?change (.start hs)
  case poll =>
    intro a ns x hx answer
    exact ⟨by simpa using hx.phase, by simpa using hx.log⟩
  case frame => exact fun hx _ _ _ _ _ hf => hx.frame hf
  case change => exact fun hx _ _ => ⟨hx.phase, hx.log⟩

end Marks

/-! ### After the abort -/

/-- How an aborted session comes out of a run that asks the host. -/
def Fault.refusal (f : Fault) : Except Failure Input → Except (Stop Failure) Unit
  | .error e => .error (.failed e)
  | .ok input => if input.running then .error (.failed (.fault f)) else .ok ()

section Courses
variable {x y : Standing} {a : Account} {ns : List Notice} {keys : Keypad} {limit : Option Nat}
  {f : Fault}

theorem FrameCourse.of_aborted {r : Except (Stop Failure) Unit} (h : FrameCourse keys x a ns y r)
    (hx : x.phase = .aborted f) :
    a = .empty ∧ ns = [] ∧ y = x ∧ r = .error (.failed (.fault f)) := by
  cases h with
  | refused hg =>
    cases hx.symm.trans hg
    exact ⟨rfl, rfl, rfl, rfl⟩
  | stuck hlive => exact absurd hx (hlive f)
  | faulted hlive => exact absurd hx (hlive f)
  | delivered hlive => exact absurd hx (hlive f)

/-- A round of an aborted session is the last, and runs no frame. -/
theorem RoundCourse.of_aborted {q : Option (Except (Stop Failure) Unit)}
    (h : RoundCourse limit x a ns y q) (hx : x.phase = .aborted f) :
    ns = [] ∧ y = x ∧
      (Reached limit x.frames ∧ a = .empty ∧ q = some (.ok ()) ∨
        ¬ Reached limit x.frames ∧
          ∃ answer, a = ⟨[.poll answer], []⟩ ∧ q = some (f.refusal answer)) := by
  cases h with
  | limit h => exact ⟨rfl, rfl, .inl ⟨h, rfl, rfl⟩⟩
  | pollFailed h => exact ⟨rfl, rfl, .inr ⟨h, _, rfl, rfl⟩⟩
  | stopped h hi => exact ⟨rfl, rfl, .inr ⟨h, _, rfl, by simp [Fault.refusal, hi]⟩⟩
  | cut h hi hf =>
    obtain ⟨rfl, rfl, rfl, hr⟩ := hf.of_aborted hx
    exact ⟨rfl, rfl, .inr ⟨h, _, rfl, by simp [Fault.refusal, hi, hr]⟩⟩
  | played h hi hf =>
    obtain ⟨-, -, -, hr⟩ := hf.of_aborted hx
    cases hr

end Courses

/-- What an aborted session does from now on, whatever is done to its machine. -/
structure Session.Ended {σ : Type} (host : Host σ) (f : Fault) (s : Session σ) : Prop where
  forever : ∀ {events a t}, History host (fun _ _ => True) s events a t →
    t.phase = .aborted f ∧ t.frames = s.frames ∧ a.attempts = [] ∧ errors events = []
  /-- A frame makes no call and changes nothing. -/
  frame : ∀ keys, s.frame host keys = ⟨s, [], .error (.failed (.fault f))⟩
  /-- A run ends in its first round. -/
  run : ∀ fuel, ∃ o, s.run host (fuel + 1) = some o ∧ o.session.machine = s.machine ∧
    o.session.phase = .aborted f ∧ o.session.frames = s.frames ∧
    (Reached s.limit s.frames ∧ calls o.events = [] ∧ o.result = .ok () ∨
      ¬ Reached s.limit s.frames ∧ calls o.events = [.poll] ∧
        o.result = f.refusal (s.polled host))

namespace Session

variable {σ : Type} {host : Host σ} {s : Session σ} {f : Fault}

theorem roundAccount_of_aborted (hs : s.phase = .aborted f) (hl : ¬ Reached s.limit s.frames) :
    s.roundAccount host = ⟨[.poll (s.polled host)], []⟩ := by
  rw [roundAccount, if_neg (fun h => hl ((limitReached_iff s).1 h))]
  cases s.polled host with
  | error e => rfl
  | ok input =>
    have hasked : (s.asked host).phase = .aborted f := hs
    simp only [frameAccount_of_aborted hasked, ite_self, Account.append_empty]

theorem run_of_aborted (host : Host σ) (hs : s.phase = .aborted f) (fuel : Nat) :
    ∃ o, s.run host (fuel + 1) = some o ∧ o.session.standing = s.standing ∧
      (Reached s.limit s.frames ∧ calls o.events = [] ∧ o.result = .ok () ∨
        ¬ Reached s.limit s.frames ∧ calls o.events = [.poll] ∧
          o.result = f.refusal (s.polled host)) := by
  rcases round_takes host s with ⟨o, hround, htakes⟩ | ⟨t, events, hround, htakes⟩
  · obtain ⟨-, hstanding, hway⟩ := htakes.course.of_aborted hs
    refine ⟨o.after [.notice (.running s.pacer.pacing)], ?_, hstanding, ?_⟩
    · simp only [run, rounds, hround, Option.map_some]
    · have hcalls : calls (o.after [.notice (.running s.pacer.pacing)]).events = _ := htakes.calls
      rw [hcalls]
      rcases hway with ⟨hl, ha, hr⟩ | ⟨hl, answer, ha, hr⟩
      · exact .inl ⟨hl, by rw [ha]; rfl, Option.some.inj hr⟩
      · rw [roundAccount_of_aborted hs hl] at ha
        cases ha
        refine .inr ⟨hl, ?_, Option.some.inj hr⟩
        rw [roundAccount_of_aborted hs hl]
        rfl
  · obtain ⟨-, -, ⟨-, -, hr⟩ | ⟨-, answer, -, hr⟩⟩ := htakes.course.of_aborted hs
    · cases hr
    · cases hr

theorem ended_of_aborted (host : Host σ) (hs : s.phase = .aborted f) : s.Ended host f where
  forever {events a t} h := by
    refine h.keeps
      (P := fun a ns x => x.phase = .aborted f ∧ x.frames = s.frames ∧ a.attempts = [] ∧ ns = [])
      ?poll ?frame ?change ?start
    case poll =>
      intro a ns x hx answer
      simpa using hx
    case frame =>
      intro a ns x ⟨hphase, hframes, hattempts, hns⟩ keys b ms y r hf
      obtain ⟨rfl, rfl, rfl, -⟩ := hf.of_aborted hphase
      exact ⟨hphase, hframes, by simpa using hattempts, by simpa using hns⟩
    case change => exact fun hx _ _ => hx
    case start => exact ⟨hs, rfl, rfl, rfl⟩
  frame := frame_of_aborted hs
  run fuel := by
    obtain ⟨o, ho, hstanding, hway⟩ := run_of_aborted host hs fuel
    have hphase : o.session.phase = s.phase := congrArg Standing.phase hstanding
    exact ⟨o, ho, congrArg Standing.machine hstanding, hphase.trans hs,
      congrArg Standing.frames hstanding, hway⟩

/-- **A session is aborted exactly from its first fault on, and for good**, whatever
is done to its machine between its frames and runs; the log has one error then, which
tells the complete frames and the instructions executed before the fault. -/
theorem aborted_iff_faulted {t : Session σ} {events : List Event} {a : Account}
    (hs : s.standing.Live) (h : History host (fun _ _ => True) s events a t) :
    (∀ f, t.phase = .aborted f ↔ Attempt.firstFault? a.attempts = some f) ∧
      errors events = (Attempt.firstAlarm? a.attempts).toList ∧
      ∀ f, t.phase = .aborted f → t.Ended host f := by
  have hmarks := Marks.of_history hs h
  exact ⟨hmarks.phase, hmarks.log, fun f hf => ended_of_aborted host hf⟩

/-- A memory of five bytes has frames, but no room for an instruction. -/
def cramped : Session Script :=
  new (.ofMemory (.blank 5)) ⟨[.ok ⟨true, .released⟩], [], [], 0, 0⟩ (.new .unlimited 0) none

theorem frame_cramped : cramped.machine.frame .released =
    ({ cramped.machine.start .released with executed := 0 },
      .error (.failed (.instructionPointer 0))) :=
  Machine.frame_of_fault (by decide) (by decide) rfl rfl

/-- Room for instructions comes too late. -/
theorem cramped_ended_for_good :
    cramped.standing.Live ∧
      ({ (cramped.frame Script.host .released).session with machine := .blank } :
        Session Script).Ended Script.host (.instructionPointer 0) := by
  have hlive : cramped.standing.Live := nofun
  have hhistory : History Script.host (fun _ _ => True) cramped _ _
      { (cramped.frame Script.host .released).session with machine := .blank } :=
    .change (.frame .start .released) trivial
  obtain ⟨hphase, -, hended⟩ := aborted_iff_faulted hlive hhistory
  refine ⟨hlive, hended _ ((hphase _).2 ?_)⟩
  rw [frameAccount_of_live hlive, frame_cramped]
  have hfault : (cramped.standing.attempt .released).fault? = some (.instructionPointer 0) :=
    Attempt.fault?_eq_some_iff.2 (by rw [Standing.attempt, machine_standing, frame_cramped])
  show [cramped.standing.attempt .released].findSome? Attempt.fault? = _
  rw [List.findSome?_cons, hfault]

end Session

end ByteByteJump
