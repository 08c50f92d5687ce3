import ByteByteJump.Proofs.Session.Account

/-! The course of a frame and of a run, without the host and without the clock.

What a session does depends on its machine, its phase and its frames
(`Standing`), on the limit, and on what the host answers, but on no other part
of the host and on no time. `FrameCourse` lists the ways of one frame, `RunCourse`
the ways of the frame loop, each with its account, its errors in the log, the
standing it leaves and how it came out. Nothing but the answers tells one course
from another (`RunCourse.unique`). That every frame and every run of a session
takes one of them is proved in `Conduct`; what holds of all runs follows by
induction on the course. -/
namespace ByteByteJump

/-- A session without its host, its pacer and its limit. -/
structure Standing where
  machine : Machine
  phase : Phase
  frames : Nat

namespace Standing

def attempt (x : Standing) (keys : Keypad) : Attempt := ⟨x.machine, keys, x.frames⟩

/-- Not ended by a fault. -/
def Live (x : Standing) : Prop := ∀ f, x.phase ≠ .aborted f

theorem live_or_aborted (x : Standing) : x.Live ∨ ∃ f, x.phase = .aborted f := by
  cases h : x.phase with
  | aborted f => exact .inr ⟨f, rfl⟩
  | _ => exact .inl fun f hf => by simp [h] at hf

end Standing

/-- There is a limit and it is reached. -/
def Reached (limit : Option Nat) (frames : Nat) : Prop := ∃ l, limit = some l ∧ l ≤ frames

/-- The ways of handing out a frame's picture and sound, with the number of complete
frames afterwards. In `unshown` and `unheard` they reach beyond the memory. -/
inductive Delivery (m : Machine) (frames : Nat) :
    List Exchange → Nat → Except (Stop Failure) Unit → Prop where
  | unshown (hp : m.picture? = none) : Delivery m frames [] frames (.error .outOfRange)
  | presentFailed {p : ByteArray} {e : Failure} (hp : m.picture? = some p) :
      Delivery m frames [.present p (.error e)] frames (.error (.failed e))
  | unheard {p : ByteArray} (hp : m.picture? = some p) (ha : m.sound? = none) :
      Delivery m frames [.present p (.ok ())] frames (.error .outOfRange)
  | playFailed {p a : ByteArray} {e : Failure} (hp : m.picture? = some p)
      (ha : m.sound? = some a) :
      Delivery m frames [.present p (.ok ()), .play a (.error e)] frames (.error (.failed e))
  | complete {p a : ByteArray} (hp : m.picture? = some p) (ha : m.sound? = some a) :
      Delivery m frames [.present p (.ok ()), .play a (.ok ())] (frames + 1) (.ok ())

/-- The ways of one frame. A refused one is not run at all. -/
inductive FrameCourse (keys : Keypad) (x : Standing) :
    Account → List Notice → Standing → Except (Stop Failure) Unit → Prop where
  | refused {f : Fault} (h : x.phase = .aborted f) :
      FrameCourse keys x .empty [] x (.error (.failed (.fault f)))
  | stuck {m : Machine} (hx : x.Live) (hm : x.machine.frame keys = (m, .error .outOfRange)) :
      FrameCourse keys x ⟨[], [x.attempt keys]⟩ [] ⟨m, .running, x.frames⟩ (.error .outOfRange)
  | faulted {m : Machine} {f : Fault} (hx : x.Live)
      (hm : x.machine.frame keys = (m, .error (.failed f))) :
      FrameCourse keys x ⟨[], [x.attempt keys]⟩ [.frameAborted x.frames m.executed f]
        ⟨m, .aborted f, x.frames⟩ (.error (.failed (.fault f)))
  | delivered {m : Machine} {exchanges : List Exchange} {frames : Nat}
      {r : Except (Stop Failure) Unit} (hx : x.Live) (hm : x.machine.frame keys = (m, .ok ()))
      (hd : Delivery m x.frames exchanges frames r) :
      FrameCourse keys x ⟨exchanges, [x.attempt keys]⟩ [] ⟨m, .idle, frames⟩ r

/-- The ways of one round of the frame loop under a limit; `none` if the loop goes on. -/
inductive RoundCourse (limit : Option Nat) (x : Standing) :
    Account → List Notice → Standing → Option (Except (Stop Failure) Unit) → Prop where
  | limit (h : Reached limit x.frames) : RoundCourse limit x .empty [] x (some (.ok ()))
  | pollFailed {e : Failure} (h : ¬ Reached limit x.frames) :
      RoundCourse limit x ⟨[.poll (.error e)], []⟩ [] x (some (.error (.failed e)))
  | stopped {input : Input} (h : ¬ Reached limit x.frames) (hi : input.running = false) :
      RoundCourse limit x ⟨[.poll (.ok input)], []⟩ [] x (some (.ok ()))
  | cut {y : Standing} {input : Input} {a : Account} {ns : List Notice} {e : Stop Failure}
      (h : ¬ Reached limit x.frames) (hi : input.running = true)
      (hf : FrameCourse input.keys x a ns y (.error e)) :
      RoundCourse limit x (⟨[.poll (.ok input)], []⟩ ++ a) ns y (some (.error e))
  | played {y : Standing} {input : Input} {a : Account} {ns : List Notice}
      (h : ¬ Reached limit x.frames) (hi : input.running = true)
      (hf : FrameCourse input.keys x a ns y (.ok ())) :
      RoundCourse limit x (⟨[.poll (.ok input)], []⟩ ++ a) ns y none

/-- The ways of the frame loop: rounds up to one that ends it. -/
inductive RunCourse (limit : Option Nat) :
    Standing → Account → List Notice → Standing → Except (Stop Failure) Unit → Prop where
  | last {x y : Standing} {a : Account} {ns : List Notice} {r : Except (Stop Failure) Unit}
      (h : RoundCourse limit x a ns y (some r)) : RunCourse limit x a ns y r
  | next {x y z : Standing} {a b : Account} {ns ms : List Notice}
      {r : Except (Stop Failure) Unit} (h : RoundCourse limit x a ns y none)
      (hr : RunCourse limit y b ms z r) : RunCourse limit x (a ++ b) (ns ++ ms) z r

/-- A frame is refused, or it is one attempt and its machine is left. -/
theorem FrameCourse.machine_cases {keys : Keypad} {x y : Standing} {a : Account} {ns : List Notice}
    {r : Except (Stop Failure) Unit} (h : FrameCourse keys x a ns y r) :
    (y.machine = x.machine ∧ a.attempts = []) ∨
      (y.machine = (x.machine.frame keys).1 ∧ a.attempts = [x.attempt keys]) := by
  cases h with
  | refused => exact .inl ⟨rfl, rfl⟩
  | stuck _ hm => exact .inr ⟨by rw [hm], rfl⟩
  | faulted _ hm => exact .inr ⟨by rw [hm], rfl⟩
  | delivered _ hm => exact .inr ⟨by rw [hm], rfl⟩

/-! ### One course for one list of answers

Two courses whose answers begin the same list are the same course: whatever else is
different between two hosts, or takes longer on one of them, is not heard. -/

variable {keys : Keypad} {limit : Option Nat} {answers : List (Except Failure (Option Input))}

theorem Delivery.unique {m : Machine} {n i j : Nat} {xs ys : List Exchange}
    {r q : Except (Stop Failure) Unit} (h : Delivery m n xs i r) (h' : Delivery m n ys j q)
    (hl : xs.map Exchange.answer <+: answers) (hl' : ys.map Exchange.answer <+: answers) :
    xs = ys ∧ i = j ∧ r = q := by
  obtain ⟨rest, rfl⟩ := hl
  cases h with
  | unshown hp => cases h' <;> simp_all
  | presentFailed hp => cases h' <;> simp_all
  | unheard hp ha => cases h' <;> simp_all
  | playFailed hp ha => cases h' <;> simp_all
  | complete hp ha => cases h' <;> simp_all

theorem FrameCourse.unique {x y z : Standing} {a b : Account} {ns ms : List Notice}
    {r q : Except (Stop Failure) Unit} (h : FrameCourse keys x a ns y r)
    (h' : FrameCourse keys x b ms z q) (hl : a.answers <+: answers) (hl' : b.answers <+: answers) :
    a = b ∧ ns = ms ∧ y = z ∧ r = q := by
  cases h with
  | refused hf =>
    cases h' with
    | refused hg =>
      cases hf.symm.trans hg
      exact ⟨rfl, rfl, rfl, rfl⟩
    | stuck hx => exact absurd hf (hx _)
    | faulted hx => exact absurd hf (hx _)
    | delivered hx => exact absurd hf (hx _)
  | stuck hx hm =>
    cases h' with
    | refused hf => exact absurd hf (hx _)
    | stuck _ hn =>
      cases hm.symm.trans hn
      exact ⟨rfl, rfl, rfl, rfl⟩
    | faulted _ hn => cases hm.symm.trans hn
    | delivered _ hn => cases hm.symm.trans hn
  | faulted hx hm =>
    cases h' with
    | refused hf => exact absurd hf (hx _)
    | stuck _ hn => cases hm.symm.trans hn
    | faulted _ hn =>
      cases hm.symm.trans hn
      exact ⟨rfl, rfl, rfl, rfl⟩
    | delivered _ hn => cases hm.symm.trans hn
  | delivered hx hm hd =>
    cases h' with
    | refused hf => exact absurd hf (hx _)
    | stuck _ hn => cases hm.symm.trans hn
    | faulted _ hn => cases hm.symm.trans hn
    | delivered _ hn he =>
      cases hm.symm.trans hn
      obtain ⟨rfl, rfl, rfl⟩ := hd.unique he hl hl'
      exact ⟨rfl, rfl, rfl, rfl⟩

/-- The first answer of a round that runs a frame is its input. -/
theorem answers_of_polled {input : Input} {a : Account}
    (h : (⟨[.poll (.ok input)], []⟩ ++ a : Account).answers <+: answers) :
    ∃ rest, answers = .ok (some input) :: rest ∧ a.answers <+: rest := by
  obtain ⟨rest, rfl⟩ := h
  exact ⟨a.answers ++ rest, rfl, List.prefix_append _ _⟩

theorem RoundCourse.unique {x y z : Standing} {a b : Account} {ns ms : List Notice}
    {r q : Option (Except (Stop Failure) Unit)} (h : RoundCourse limit x a ns y r)
    (h' : RoundCourse limit x b ms z q) (hl : a.answers <+: answers) (hl' : b.answers <+: answers) :
    a = b ∧ ns = ms ∧ y = z ∧ r = q := by
  cases h with
  | limit h =>
    cases h' with
    | limit => exact ⟨rfl, rfl, rfl, rfl⟩
    | pollFailed hn => exact absurd h hn
    | stopped hn => exact absurd h hn
    | cut hn => exact absurd h hn
    | played hn => exact absurd h hn
  | pollFailed hn =>
    obtain ⟨rest, rfl⟩ := hl
    cases h' with
    | limit h => exact absurd h hn
    | pollFailed => simp_all
    | stopped => simp_all
    | cut => simp_all
    | played => simp_all
  | stopped hn hi =>
    obtain ⟨rest, rfl⟩ := hl
    cases h' with
    | limit h => exact absurd h hn
    | pollFailed => simp_all
    | stopped => simp_all
    | cut => simp_all
    | played => simp_all
  | cut hn hi hf =>
    obtain ⟨rest, rfl, ha⟩ := answers_of_polled hl
    cases h' with
    | limit h => exact absurd h hn
    | pollFailed => simp_all
    | stopped => simp_all
    | cut _ _ hg =>
      obtain ⟨_, heq, hb⟩ := answers_of_polled hl'
      cases heq
      obtain ⟨rfl, rfl, rfl, hr⟩ := hf.unique hg ha hb
      cases hr
      exact ⟨rfl, rfl, rfl, rfl⟩
    | played _ _ hg =>
      obtain ⟨_, heq, hb⟩ := answers_of_polled hl'
      cases heq
      cases (hf.unique hg ha hb).2.2.2
  | played hn hi hf =>
    obtain ⟨rest, rfl, ha⟩ := answers_of_polled hl
    cases h' with
    | limit h => exact absurd h hn
    | pollFailed => simp_all
    | stopped => simp_all
    | cut _ _ hg =>
      obtain ⟨_, heq, hb⟩ := answers_of_polled hl'
      cases heq
      cases (hf.unique hg ha hb).2.2.2
    | played _ _ hg =>
      obtain ⟨_, heq, hb⟩ := answers_of_polled hl'
      cases heq
      obtain ⟨rfl, rfl, rfl, -⟩ := hf.unique hg ha hb
      exact ⟨rfl, rfl, rfl, rfl⟩

/-- **A run is told by its answers.** From one standing and under one limit there is
at most one course for a list of answers. -/
theorem RunCourse.unique {x y z : Standing} {a b : Account} {ns ms : List Notice}
    {r q : Except (Stop Failure) Unit} (h : RunCourse limit x a ns y r)
    (h' : RunCourse limit x b ms z q) (hl : a.answers <+: answers) (hl' : b.answers <+: answers) :
    a = b ∧ ns = ms ∧ y = z ∧ r = q := by
  induction h generalizing b ms z q answers with
  | last h =>
    cases h' with
    | last h' =>
      obtain ⟨rfl, rfl, rfl, hr⟩ := h.unique h' hl hl'
      cases hr
      exact ⟨rfl, rfl, rfl, rfl⟩
    | next h' hr' =>
      rw [Account.answers_append] at hl'
      cases (h.unique h' hl ((List.prefix_append _ _).trans hl')).2.2.2
  | next h hr ih =>
    rw [Account.answers_append] at hl
    have ha := (List.prefix_append _ _).trans hl
    cases h' with
    | last h' => cases (h.unique h' ha hl').2.2.2
    | next h' hr' =>
      rw [Account.answers_append] at hl'
      obtain ⟨rfl, rfl, rfl, -⟩ := h.unique h' ha ((List.prefix_append _ _).trans hl')
      -- The rest of the run is told by what the first round left of the answers.
      obtain ⟨rest, rfl⟩ := ha
      obtain ⟨rfl, rfl, rfl, rfl⟩ := ih hr' ((List.prefix_append_right_inj _).1 hl)
        ((List.prefix_append_right_inj _).1 hl')
      exact ⟨rfl, rfl, rfl, rfl⟩

end ByteByteJump
