import ByteByteJump.Proofs.Machine.Confined
import ByteByteJump.Proofs.Machine.Waiting
import ByteByteJump.Proofs.Session.Accounting
import ByteByteJump.Proofs.Session.Ending
import ByteByteJump.Proofs.Session.Protocol

/-! A limit ends a run, and so does the host.

The frame loop asks nothing of the program: it ends because frames become complete, one
in each round that does not end it. A limit is therefore reached after as many rounds as
frames are missing, in front of a host that never stops as well (`Limited`), and a host
that stops or fails when it is polled ends the loop there. Whatever else happens to a
round is the end of the loop too, be it a fault, a refused output or a session that was
aborted long before. -/
namespace ByteByteJump

/-! ### What the host says -/

/-- What the host was asked for its input, with its answer. -/
def Exchange.poll? : Exchange → Option (Except Failure Input)
  | .poll answer => some answer
  | _ => none

/-- The host has the run go on: it is running, or takes an output. -/
def Exchange.GoesOn : Exchange → Prop
  | .poll (.ok input) => input.running = true
  | .present _ (.ok ()) => True
  | .play _ (.ok ()) => True
  | _ => False

/-- The host has the run end: it fails, or it is not running. -/
def Ends (answer : Except Failure Input) : Prop := ∀ input, answer = .ok input → input.running = false

/-- A host that is always running and takes every output. -/
structure Host.Tireless {σ : Type} (host : Host σ) : Prop where
  poll : ∀ a, ∃ input, (host.poll a).1 = .ok input ∧ input.running = true
  present : ∀ picture a, (host.present picture a).1 = .ok ()
  play : ∀ sound a, (host.play sound a).1 = .ok ()

namespace Account

/-- The host's answers to polls, in order. -/
def polls (a : Account) : List (Except Failure Input) := a.exchanges.filterMap Exchange.poll?

/-- The last poll found the host not running. -/
def Stopped (a : Account) : Prop :=
  ∃ input, a.polls.getLast? = some (.ok input) ∧ input.running = false

/-- The host always went on, and no frame faulted. -/
structure Untroubled (a : Account) : Prop where
  exchanges : ∀ x ∈ a.exchanges, x.GoesOn
  attempts : ∀ t ∈ a.attempts, t.fault? = none

@[simp] theorem polls_append (a b : Account) : (a ++ b).polls = a.polls ++ b.polls :=
  List.filterMap_append

/-- A later part of an account that polls at all tells the last poll. -/
theorem stopped_append {a b : Account} :
    (a ++ b).Stopped ↔ b.Stopped ∨ b.polls = [] ∧ a.Stopped := by
  unfold Stopped
  rw [polls_append, List.getLast?_append]
  cases hb : b.polls.getLast? with
  | none => simp [List.getLast?_eq_none_iff.1 hb]
  | some answer =>
    have hpolls : b.polls ≠ [] := by
      rintro hnil
      rw [hnil] at hb
      cases hb
    simp [hpolls]

theorem Untroubled.right {a b : Account} (h : (a ++ b).Untroubled) : b.Untroubled :=
  ⟨fun x hx => h.exchanges x (List.mem_append_right _ hx),
    fun t ht => h.attempts t (List.mem_append_right _ ht)⟩

end Account

/-! ### Courses under a limit -/

section Courses
variable {x y : Standing} {a : Account} {ns : List Notice} {keys : Keypad} {limit : Option Nat}
  {m : Machine} {r : Except (Stop Failure) Unit} {n : Nat}

theorem reached_iff {frames : Nat} : Reached (some n) frames ↔ n ≤ frames := by
  simp [Reached]

/-- A frame does not poll. -/
theorem FrameCourse.polls (h : FrameCourse keys x a ns y r) : a.polls = [] := by
  cases h with
  | refused => rfl
  | stuck => rfl
  | faulted => rfl
  | delivered _ _ hd => cases hd <;> rfl

/-- A round polls once, unless the limit is reached. -/
theorem RoundCourse.polls {q : Option (Except (Stop Failure) Unit)}
    (h : RoundCourse limit x a ns y q) :
    (Reached limit x.frames ∧ a = .empty ∧ q = some (.ok ())) ∨
      (¬ Reached limit x.frames ∧ ∃ answer, a.polls = [answer] ∧ (q = none → ¬ Ends answer)) := by
  cases h with
  | limit h => exact .inl ⟨h, rfl, rfl⟩
  | pollFailed h => exact .inr ⟨h, _, rfl, nofun⟩
  | stopped h => exact .inr ⟨h, _, rfl, nofun⟩
  | @cut y input a ns e h _ hf =>
    refine .inr ⟨h, .ok input, ?_, nofun⟩
    rw [Account.polls_append, hf.polls]
    rfl
  | @played y input a ns h hi hf =>
    refine .inr ⟨h, .ok input, ?_, ?_⟩
    · rw [Account.polls_append, hf.polls]
      rfl
    · intro _ hends
      rw [hends input rfl] at hi
      cases hi

theorem RoundCourse.length_polls_le {q : Option (Except (Stop Failure) Unit)}
    (h : RoundCourse limit x a ns y q) : a.polls.length ≤ 1 := by
  rcases h.polls with ⟨-, rfl, -⟩ | ⟨-, answer, hpolls, -⟩
  · exact Nat.zero_le _
  · rw [hpolls]
    exact Nat.le_refl 1

/-- A round that ends the loop completes no frame. -/
theorem RoundCourse.frames_eq (h : RoundCourse limit x a ns y (some r)) : y.frames = x.frames := by
  cases h with
  | limit => rfl
  | pollFailed => rfl
  | stopped => rfl
  | cut _ _ hf => exact hf.counts.2 nofun

theorem RunCourse.polls_le (h : RunCourse (some n) x a ns y r) : a.polls.length ≤ n - x.frames := by
  generalize hlimit : some n = limit at h
  induction h with
  | last h =>
    rcases h.polls with ⟨-, rfl, -⟩ | ⟨hbelow, answer, hpolls, -⟩
    · exact Nat.zero_le _
    · rw [← hlimit, reached_iff] at hbelow
      rw [hpolls, List.length_singleton]
      omega
  | next h _ ih =>
    obtain ⟨hbelow, -, hframes, -⟩ := h.shown
    rcases h.polls with ⟨hreached, -⟩ | ⟨-, answer, hpolls, -⟩
    · exact absurd hreached hbelow
    · rw [← hlimit, reached_iff] at hbelow
      rw [Account.polls_append, hpolls, List.length_append, List.length_singleton]
      omega

/-- Frames are not lost, and a limit is not passed. -/
theorem RunCourse.frames_bounds (h : RunCourse (some n) x a ns y r) :
    x.frames ≤ y.frames ∧ y.frames ≤ max x.frames n := by
  generalize hlimit : some n = limit at h
  induction h with
  | last h =>
    rw [h.frames_eq]
    omega
  | next h _ ih =>
    obtain ⟨hbelow, -, hframes, -⟩ := h.shown
    rw [← hlimit, reached_iff] at hbelow
    omega

/-- With its limit reached, a run asks the host for nothing. -/
theorem RunCourse.eq_empty_of_reached (h : RunCourse limit x a ns y r)
    (hx : Reached limit x.frames) : a = .empty := by
  cases h with
  | last h =>
    rcases h.polls with ⟨-, ha, -⟩ | ⟨hbelow, -⟩
    · exact ha
    · exact absurd hx hbelow
  | next h => exact absurd hx h.shown.1

/-- A run comes out well only at its limit or because the host stopped it. -/
theorem RunCourse.reached_or_stopped (h : RunCourse limit x a ns y (.ok ())) :
    Reached limit y.frames ∨ a.Stopped := by
  generalize hr : Except.ok () = r at h
  induction h with
  | last h =>
    cases h with
    | limit h => exact .inl h
    | pollFailed => cases hr
    | stopped _ hi => exact .inr ⟨_, rfl, hi⟩
    | cut => cases hr
  | next _ _ ih => exact (ih hr).imp_right fun hstopped => Account.stopped_append.2 (.inl hstopped)

/-! ### Within the memory, without trouble -/

/-- A round that goes on leaves a machine that stays within the memory. -/
theorem RoundCourse.confined (h : RoundCourse limit x a ns y none)
    (hx : x.Live → x.machine.Confined) (hy : y.Live) : y.machine.Confined := by
  cases h with
  | played _ _ hf => exact hf.confined hx hy

theorem Delivery.inRange {j k : Nat} {xs : List Exchange} (h : Delivery m j xs k r)
    (hp : m.picture? ≠ none) (ha : m.sound? ≠ none) : r ≠ .error .outOfRange := by
  cases h with
  | unshown hnone => exact absurd hnone hp
  | presentFailed => nofun
  | unheard _ hnone => exact absurd hnone ha
  | playFailed => nofun
  | complete => nofun

theorem Attempt.fault?_of_complete {t : Attempt} (h : t.machine.frame t.keys = (m, .ok ())) :
    t.fault? = none := by
  rw [fault?, h]

theorem FrameCourse.inRange (h : FrameCourse keys x a ns y r) (hx : x.Live → x.machine.Confined) :
    r ≠ .error .outOfRange := by
  cases h with
  | refused => nofun
  | stuck hlive hm => exact absurd (by rw [hm]) ((hx hlive).frames .refl keys)
  | faulted => nofun
  | delivered hlive hm hd =>
    obtain ⟨hp, ha⟩ := (hx hlive).outputs .refl hm
    exact hd.inRange hp ha

theorem RoundCourse.inRange (h : RoundCourse limit x a ns y (some r))
    (hx : x.Live → x.machine.Confined) : r ≠ .error .outOfRange := by
  cases h with
  | limit => nofun
  | pollFailed => nofun
  | stopped => nofun
  | cut _ _ hf => exact hf.inRange hx

theorem RunCourse.inRange (h : RunCourse limit x a ns y r) (hx : x.Live → x.machine.Confined) :
    r ≠ .error .outOfRange := by
  induction h with
  | last h => exact h.inRange hx
  | next h _ ih => exact ih (h.confined hx)

/-- A frame comes out well if the host takes its outputs and it does not fault. -/
theorem FrameCourse.ok_of_untroubled (h : FrameCourse keys x a ns y r) (hlive : x.Live)
    (hx : x.machine.Confined) (ha : a.Untroubled) : r = .ok () := by
  cases h with
  | refused hf => exact absurd hf (hlive _)
  | stuck _ hm => exact absurd (by rw [hm]) (hx.frames .refl keys)
  | faulted _ hm =>
    have hquiet := ha.attempts _ (.head _)
    rw [Attempt.fault?_eq_some_iff.2 (by rw [Standing.attempt, hm])] at hquiet
    cases hquiet
  | delivered _ hm hd =>
    obtain ⟨hp, hs⟩ := hx.outputs .refl hm
    cases hd with
    | unshown hnone => exact absurd hnone hp
    | presentFailed => exact (ha.exchanges _ (.head _)).elim
    | unheard _ hnone => exact absurd hnone hs
    | playFailed => exact (ha.exchanges _ (.tail _ (.head _))).elim
    | complete => rfl

/-- Without trouble a round ends the loop only at the limit. -/
theorem RoundCourse.reached_of_untroubled (h : RoundCourse limit x a ns y (some r))
    (hlive : x.Live) (hx : x.machine.Confined) (ha : a.Untroubled) :
    r = .ok () ∧ Reached limit y.frames := by
  cases h with
  | limit h => exact ⟨rfl, h⟩
  | pollFailed => exact (ha.exchanges _ (.head _)).elim
  | stopped _ hi =>
    have hgoes := ha.exchanges _ (.head _)
    exact absurd hi (by rw [hgoes]; nofun)
  | cut _ _ hf => cases hf.ok_of_untroubled hlive hx ha.right

theorem RunCourse.reached_of_untroubled (h : RunCourse limit x a ns y r) (hlive : x.Live)
    (hx : x.machine.Confined) (ha : a.Untroubled) : r = .ok () ∧ Reached limit y.frames := by
  induction h with
  | last h => exact h.reached_of_untroubled hlive hx ha
  | next h _ ih =>
    have hy := h.shown.2.1
    exact ih hy (h.confined (fun _ => hx) hy) ha.right

end Courses

namespace Session

variable {σ : Type} {host : Host σ} {s : Session σ} {n m : Nat}

/-! ### The loop ends -/

/-- Under a limit a loop ends: each round that goes on completes one of the frames that
are missing. -/
theorem exists_loops_of_limit (host : Host σ) (hs : s.limit = some n) :
    ∃ a o, Loops host s a o := by
  obtain ⟨missing, hmissing⟩ : ∃ k, n - s.frames ≤ k := ⟨_, Nat.le_refl _⟩
  induction missing generalizing s with
  | zero =>
    rcases hround : s.round host with o | ⟨t, events⟩
    · exact ⟨_, _, .last hround⟩
    · have hbelow := (takes_of_again hround).course.shown.1
      rw [hs, reached_iff] at hbelow
      exact absurd (Nat.le_of_sub_eq_zero (Nat.le_zero.1 hmissing)) hbelow
  | succ missing ih =>
    rcases hround : s.round host with o | ⟨t, events⟩
    · exact ⟨_, _, .last hround⟩
    · have htakes := takes_of_again hround
      have hframes : t.frames = s.frames + 1 := htakes.course.shown.2.2.1
      have hfewer : n - t.frames ≤ missing := by omega
      obtain ⟨a, o, hloops⟩ := ih (htakes.limit.trans hs) hfewer
      exact ⟨_, _, .next hround hloops⟩

/-- What a round that goes on was answered when it polled, as any longer account tells. -/
theorem polls_of_again {t : Session σ} {events : List Event} (h : s.round host = .again t events)
    (fuel : Nat) :
    ∃ answer, (s.roundAccount host).polls = [answer] ∧ ¬ Ends answer ∧
      (s.runAccount host (fuel + 1)).polls = answer :: (t.runAccount host fuel).polls := by
  rcases (takes_of_again h).course.polls with ⟨-, -, hq⟩ | ⟨-, answer, hpolls, hgoes⟩
  · cases hq
  · refine ⟨answer, hpolls, hgoes rfl, ?_⟩
    simp only [runAccount, h, Account.polls_append, hpolls, List.singleton_append]

/-- What a round that polls was answered. -/
theorem polls_roundAccount (hs : s.limitReached = false) :
    (s.roundAccount host).polls = [s.polled host] := by
  unfold roundAccount
  rw [if_neg (ne_true_of_eq_false hs)]
  cases s.polled host with
  | error e => rfl
  | ok input =>
    have hrest : (if input.running then frameAccount host input.keys (s.asked host)
        else Account.empty).polls = [] := by
      split
      · exact (frame_takes host input.keys (s.asked host)).course.polls
      · rfl
    simp only [Account.polls_append, hrest, List.append_nil]
    rfl

/-- No round that goes on has found the host at its end. -/
theorem Leads.not_stopped {t : Session σ} {a : Account} {es : List Event}
    (h : Leads host s a es t) : ¬ a.Stopped := by
  induction h with
  | refl => exact nofun
  | round h _ ih =>
    obtain ⟨answer, hpolls, hgoes, -⟩ := polls_of_again h 0
    rw [Account.stopped_append]
    rintro (hstopped | ⟨-, input, hinput, hrunning⟩)
    · exact ih hstopped
    · rw [hpolls, List.getLast?_singleton, Option.some.injEq] at hinput
      subst hinput
      exact hgoes fun _ hi => by cases hi; exact hrunning

/-- A loop whose poll number `m` finds the host at its end is over by then. -/
theorem exists_loops_of_ends
    (hs : ∀ fuel answer, (s.runAccount host fuel).polls[m]? = some answer → Ends answer) :
    ∃ a o, Loops host s a o ∧ a.polls.length ≤ m + 1 := by
  induction m generalizing s with
  | zero =>
    rcases hround : s.round host with o | ⟨t, events⟩
    · exact ⟨_, _, .last hround, (takes_of_over hround).course.length_polls_le⟩
    · obtain ⟨answer, -, hgoes, hpolls⟩ := polls_of_again hround 0
      exact absurd (hs 1 answer (by rw [hpolls]; rfl)) hgoes
  | succ m ih =>
    rcases hround : s.round host with o | ⟨t, events⟩
    · have hone := (takes_of_over hround).course.length_polls_le
      exact ⟨_, _, .last hround, Nat.le_trans hone (Nat.le_add_left 1 (m + 1))⟩
    · have ht (fuel : Nat) (answer : Except Failure Input)
          (h : (t.runAccount host fuel).polls[m]? = some answer) : Ends answer := by
        obtain ⟨first, -, -, hpolls⟩ := polls_of_again hround fuel
        exact hs (fuel + 1) answer (by rw [hpolls]; exact h)
      obtain ⟨a, o, hloops, hcount⟩ := ih ht
      obtain ⟨first, hfirst, -⟩ := polls_of_again hround 0
      refine ⟨_, _, .next hround hloops, ?_⟩
      rw [Account.polls_append, hfirst]
      exact Nat.succ_le_succ hcount

/-! ### The run keeps to its limit -/

/-- What a limit of `n` frames makes of a run. -/
structure Limited (n : Nat) (s : Session σ) (a : Account) (o : Outcome σ) : Prop where
  /-- No frame reached beyond the memory. -/
  inRange : o.result ≠ .error .outOfRange
  calls : calls o.events = a.exchanges.map Exchange.call
  polls : a.polls.length ≤ n - s.frames
  silent : n ≤ s.frames → ByteByteJump.calls o.events = []
  atLeast : s.frames ≤ o.session.frames
  atMost : o.session.frames ≤ max s.frames n
  ok : o.result = .ok () → n ≤ o.session.frames ∨ a.Stopped
  untroubled : s.standing.Live → a.Untroubled →
    o.result = .ok () ∧ o.session.frames = max s.frames n

theorem limited_of_runs {a : Account} {o : Outcome σ}
    (hs : s.standing.Live → s.machine.Confined) (hlimit : s.limit = some n)
    (h : s.Runs host a o) : Limited n s a o := by
  have htakes := h.takes
  have hcourse := htakes.course
  rw [hlimit] at hcourse
  obtain ⟨hleast, hmost⟩ := hcourse.frames_bounds
  have hstart : s.standing.frames = s.frames := rfl
  have hend : o.session.standing.frames = o.session.frames := rfl
  refine ⟨hcourse.inRange hs, htakes.calls, hcourse.polls_le, fun hn => ?_, hleast, hmost,
    fun hok => ?_, fun hlive ha => ?_⟩
  · rw [htakes.calls, hcourse.eq_empty_of_reached (reached_iff.2 hn)]
    rfl
  · rw [hok] at hcourse
    exact hcourse.reached_or_stopped.imp_left reached_iff.1
  · obtain ⟨hok, hreached⟩ := hcourse.reached_of_untroubled hlive (hs hlive) ha
    exact ⟨hok, by rw [reached_iff] at hreached; omega⟩

/-- **Every run under a limit ends, and keeps to the limit**, whatever the host does and
however the session stood; and so does, with any limit or none, a run against a host that
stops or fails at one of its polls. The run polls at most once for each frame that is
missing, or up to that poll. -/
theorem run_ends (host : Host σ) (hs : s.standing.Live → s.machine.Confined) :
    (∀ n, s.limit = some n → ∃ a o, s.Runs host a o ∧ Limited n s a o) ∧
      ∀ m, (∀ fuel answer, (s.runAccount host fuel).polls[m]? = some answer → Ends answer) →
        ∃ a o, s.Runs host a o ∧ o.result ≠ .error .outOfRange ∧
          calls o.events = a.exchanges.map Exchange.call ∧ a.polls.length ≤ m + 1 := by
  constructor
  · intro n hlimit
    obtain ⟨a, last, hloops⟩ := exists_loops_of_limit host hlimit
    have hruns : s.Runs host a _ := runs_iff_loops.2 ⟨last, hloops, rfl⟩
    exact ⟨a, _, hruns, limited_of_runs hs hlimit hruns⟩
  · intro m hends
    obtain ⟨a, last, hloops, hcount⟩ := exists_loops_of_ends hends
    have hruns : s.Runs host a _ := runs_iff_loops.2 ⟨last, hloops, rfl⟩
    exact ⟨a, _, hruns, hruns.takes.course.inRange hs, hruns.takes.calls, hcount⟩

/-! ### A host that never stops -/

theorem goesOn_of_deliver (hh : host.Tireless) (s : Session σ) :
    ∀ x ∈ s.deliverExchanges host, x.GoesOn := by
  intro x hx
  unfold deliverExchanges playExchanges at hx
  split at hx
  · cases hx
  next picture _ =>
    split at hx
    next heq => cases (congrArg Prod.fst heq).symm.trans (hh.present picture s.host)
    next state _ =>
      rcases List.mem_cons.1 hx with rfl | hx
      · trivial
      · split at hx
        · cases hx
        next sound _ =>
          rw [List.mem_singleton.1 hx, hh.play sound]
          trivial

theorem goesOn_of_frame (hh : host.Tireless) (keys : Keypad) (s : Session σ) :
    ∀ x ∈ (s.frameAccount host keys).exchanges, x.GoesOn := by
  rcases s.standing.live_or_aborted with hs | ⟨f, hf⟩
  · rw [frameAccount_of_live hs]
    rcases s.machine.frame keys with ⟨m, e | _⟩
    · exact nofun
    · exact goesOn_of_deliver hh _
  · rw [frameAccount_of_aborted hf]
    exact nofun

theorem goesOn_of_round (hh : host.Tireless) (s : Session σ) :
    ∀ x ∈ (s.roundAccount host).exchanges, x.GoesOn := by
  intro x hx
  obtain ⟨input, hpolled, hrunning⟩ : ∃ input, s.polled host = .ok input ∧ input.running = true :=
    hh.poll _
  unfold roundAccount at hx
  rw [hpolled] at hx
  split at hx
  · cases hx
  · simp only [hrunning, if_true] at hx
    rcases List.mem_cons.1 hx with rfl | hx
    · exact hrunning
    · exact goesOn_of_frame hh input.keys _ x hx

/-- In front of such a host nothing that a run asks is a reason to end it. -/
theorem goesOn_of_run (hh : host.Tireless) (fuel : Nat) (s : Session σ) :
    ∀ x ∈ (s.runAccount host fuel).exchanges, x.GoesOn := by
  induction fuel generalizing s with
  | zero => exact nofun
  | succ fuel ih =>
    intro x hx
    rw [runAccount, Account.exchanges_append] at hx
    rcases List.mem_append.1 hx with hx | hx
    · exact goesOn_of_round hh s x hx
    · rcases hround : s.round host with o | ⟨t, events⟩
      · rw [hround] at hx
        cases hx
      · rw [hround] at hx
        exact ih t x hx

/-- A host that never stops and has no state. -/
def tireless : Host Unit where
  poll _ := (.ok ⟨true, .released⟩, ())
  present _ _ := (.ok (), ())
  play _ _ := (.ok (), ())
  now _ := (0, ())
  sleep _ _ := ()

theorem tireless_tireless : tireless.Tireless :=
  ⟨fun _ => ⟨_, rfl, rfl⟩, fun _ _ => rfl, fun _ _ => rfl⟩

/-- A machine in front of that host, with a limit of one frame. -/
def oneFrame (m : Machine) : Session Unit := new m () (.new .unlimited 0) (some 1)

/-- Only the first round of its run sets out on a frame. -/
theorem attempts_oneFrame {m : Machine} {a : Account} {o : Outcome Unit}
    (h : (oneFrame m).Runs tireless a o) : a.attempts = [⟨m, .released, 0⟩] := by
  have hfirst : ((oneFrame m).roundAccount tireless).attempts = [⟨m, .released, 0⟩] := rfl
  obtain ⟨last, hloops, rfl⟩ := runs_iff_loops.1 h
  cases hloops with
  | last => exact hfirst
  | @next _ t _ b _ hround ht =>
    have htakes := takes_of_again hround
    have hlimit : t.limit = some 1 := htakes.limit
    have hframes : t.frames = 0 + 1 := htakes.course.shown.2.2.1
    have hrest : t.Runs tireless b _ := runs_iff_loops.2 ⟨_, ht, rfl⟩
    have hnothing : b = .empty := by
      apply hrest.takes.course.eq_empty_of_reached
      rw [hlimit, reached_iff]
      exact Nat.le_of_eq hframes.symm
    rw [hnothing, Account.append_empty]
    exact hfirst

/-- A machine in front of a script that says to stop at once, without a limit. -/
def unscripted (m : Machine) : Session Script := new m ⟨[], [], [], 0, 0⟩ (.new .unlimited 0) none

theorem ends_unscripted (m : Machine) (fuel : Nat) (answer : Except Failure Input)
    (h : ((unscripted m).runAccount Script.host fuel).polls[0]? = some answer) : Ends answer := by
  cases fuel with
  | zero => cases h
  | succ fuel =>
    cases h
    intro input hinput
    cases hinput
    rfl

/-- A machine of zeros is shown once, although the host would have it go on, and is not shown
by a host that stops at once. -/
theorem tireless_run_ends :
    ((oneFrame .blank).standing.Live → (oneFrame .blank).machine.Confined) ∧
      (∃ a o, (oneFrame .blank).Runs tireless a o ∧ a.polls.length ≤ 1 ∧ o.result = .ok () ∧
        o.session.frames = 1) ∧
      ∃ a o, (unscripted .blank).Runs Script.host a o ∧ a.polls.length ≤ 1 := by
  have hfull : Machine.blank.Full := Memory.size_blank _
  have hframe := Machine.frame_of_waiting hfull.five_le Machine.fetch_start_blank
  -- Nothing else of the blank machine matters.
  generalize Machine.blank = m at hfull hframe ⊢
  have hconfined : (oneFrame m).standing.Live → (oneFrame m).machine.Confined :=
    fun _ => Machine.confined_of_full hfull
  obtain ⟨a, o, hruns, hlimited⟩ := (run_ends tireless hconfined).1 1 rfl
  have huntroubled : a.Untroubled := by
    constructor
    · obtain ⟨fuel, -, rfl⟩ := hruns
      exact goesOn_of_run tireless_tireless fuel _
    · rw [attempts_oneFrame hruns]
      intro t ht
      rw [List.mem_singleton.1 ht]
      exact Attempt.fault?_of_complete hframe
  have hlive : (oneFrame m).standing.Live := nofun
  obtain ⟨hok, hframes⟩ := hlimited.untroubled hlive huntroubled
  obtain ⟨b, p, hstopped, -, -, hcount⟩ := (run_ends (s := unscripted m) Script.host
    fun _ => Machine.confined_of_full hfull).2 0 (ends_unscripted m)
  exact ⟨hconfined, ⟨a, o, hruns, hlimited.polls, hok, hframes⟩, b, p, hstopped, hcount⟩

end Session

end ByteByteJump
