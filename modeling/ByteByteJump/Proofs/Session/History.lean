import ByteByteJump.Proofs.Session.Conduct

/-! Histories: what may happen to a session from its beginning on.

A session is used from outside through runs of the loop and through single frames,
and in between its machine may be changed, as far as the owner is allowed to
(`Change`). A `History` lists all of it with the events and the account so far.
What frames, polls and changes keep true of the account, the errors and the
standing is true after every history (`History.keeps`): a run is polls and frames.
It is true, too, at every `Moment`, which may lie between two rounds of a run that
has not ended and perhaps never will (`Moment.keeps`). -/
namespace ByteByteJump

/-! ### From frames to runs -/

section Keeps

variable {P : Account → List Notice → Standing → Prop}
  (hpoll : ∀ {a ns x}, P a ns x → ∀ answer, P (a ++ ⟨[.poll answer], []⟩) ns x)
  (hframe : ∀ {a ns x}, P a ns x → ∀ {keys b ms y r}, FrameCourse keys x b ms y r →
    P (a ++ b) (ns ++ ms) y)

include hpoll hframe

theorem RoundCourse.keeps {limit : Option Nat} {x y : Standing} {a b : Account}
    {ns ms : List Notice} {r : Option (Except (Stop Failure) Unit)}
    (h : RoundCourse limit x b ms y r) (hP : P a ns x) : P (a ++ b) (ns ++ ms) y := by
  cases h with
  | limit => simpa using hP
  | pollFailed => simpa using hpoll hP _
  | stopped => simpa using hpoll hP _
  | cut _ _ hf =>
    rw [← Account.append_assoc]
    exact hframe (hpoll hP _) hf
  | played _ _ hf =>
    rw [← Account.append_assoc]
    exact hframe (hpoll hP _) hf

theorem RunCourse.keeps {limit : Option Nat} {x y : Standing} {a b : Account}
    {ns ms : List Notice} {r : Except (Stop Failure) Unit} (h : RunCourse limit x b ms y r)
    (hP : P a ns x) : P (a ++ b) (ns ++ ms) y := by
  induction h generalizing a ns with
  | last h => exact h.keeps hpoll hframe hP
  | next h _ ih =>
    rw [← Account.append_assoc, ← List.append_assoc]
    exact ih (h.keeps hpoll hframe hP)

end Keeps

/-! ### Histories -/

variable {σ : Type}

/-- What has happened to a session since `s`: the events, the account, and the
session it is now. -/
inductive History (host : Host σ) (Change : Machine → Machine → Prop) (s : Session σ) :
    List Event → Account → Session σ → Prop where
  | start : History host Change s [] .empty s
  | run {events : List Event} {a : Account} {t : Session σ} {fuel : Nat} {o : Session.Outcome σ}
      (h : History host Change s events a t) (ho : t.run host fuel = some o) :
      History host Change s (events ++ o.events) (a ++ t.runAccount host fuel) o.session
  | frame {events : List Event} {a : Account} {t : Session σ}
      (h : History host Change s events a t) (keys : Keypad) :
      History host Change s (events ++ (t.frame host keys).events)
        (a ++ t.frameAccount host keys) (t.frame host keys).session
  | change {events : List Event} {a : Account} {t : Session σ} {m : Machine}
      (h : History host Change s events a t) (hm : Change t.machine m) :
      History host Change s events a { t with machine := m }

theorem History.keeps {host : Host σ} {Change : Machine → Machine → Prop}
    {P : Account → List Notice → Standing → Prop} {s t : Session σ} {events : List Event}
    {a : Account}
    (hpoll : ∀ {a ns x}, P a ns x → ∀ answer, P (a ++ ⟨[.poll answer], []⟩) ns x)
    (hframe : ∀ {a ns x}, P a ns x → ∀ {keys b ms y r}, FrameCourse keys x b ms y r →
      P (a ++ b) (ns ++ ms) y)
    (hchange : ∀ {a ns x}, P a ns x → ∀ {m}, Change x.machine m → P a ns { x with machine := m })
    (hstart : P .empty [] s.standing) (h : History host Change s events a t) :
    P a (errors events) t.standing := by
  induction h with
  | start => exact hstart
  | run h ho ih =>
    rw [errors_append]
    exact (Session.run_takes ho).course.keeps hpoll hframe ih
  | frame h keys ih =>
    rw [errors_append]
    exact hframe ih (Session.frame_takes host keys _).course
  | change h hm ih => exact hchange ih hm

/-! ### Moments -/

/-- The account and the session between two operations of a history, or between two
rounds of the run that follows it. -/
inductive Moment (host : Host σ) (Change : Machine → Machine → Prop) (s : Session σ) :
    Account → Session σ → Prop where
  | settled {events : List Event} {a : Account} {t : Session σ}
      (h : History host Change s events a t) : Moment host Change s a t
  | round {a : Account} {t u : Session σ} {events : List Event} (h : Moment host Change s a t)
      (hr : t.round host = .again u events) : Moment host Change s (a ++ t.roundAccount host) u

theorem Moment.keeps {host : Host σ} {Change : Machine → Machine → Prop}
    {P : Account → Standing → Prop} {s t : Session σ} {a : Account}
    (hpoll : ∀ {a x}, P a x → ∀ answer, P (a ++ ⟨[.poll answer], []⟩) x)
    (hframe : ∀ {a x}, P a x → ∀ {keys b ns y r}, FrameCourse keys x b ns y r → P (a ++ b) y)
    (hchange : ∀ {a x}, P a x → ∀ {m}, Change x.machine m → P a { x with machine := m })
    (hstart : P .empty s.standing) (h : Moment host Change s a t) : P a t.standing := by
  -- The errors in the log do not matter here.
  let Q (a : Account) (_ : List Notice) (x : Standing) : Prop := P a x
  induction h with
  | settled h => exact h.keeps (P := Q) hpoll hframe hchange hstart
  | @round a t u events h hr ih =>
    have hQ : Q a [] t.standing := ih
    rcases Session.round_takes host t with ⟨o, hround, -⟩ | ⟨next, _, hround, htakes⟩
    · cases hround.symm.trans hr
    · cases hround.symm.trans hr
      exact htakes.course.keeps hpoll hframe hQ

end ByteByteJump
