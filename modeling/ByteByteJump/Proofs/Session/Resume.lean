import ByteByteJump.Proofs.Session.Follow
import ByteByteJump.Proofs.Session.Relimit

/-! Stopping and going on.

A run that its host stopped, or that came to its limit, may be followed by another. The
program does not notice: the outputs of both, the machine they leave and the way the
second comes out are those of one run that was not interrupted. For a limit this holds in
front of any host. A stop takes a poll and some time, so there the host is one that
follows a script. -/
namespace ByteByteJump.Session

open scoped Stream'

variable {σ τ : Type}

/-- Two sessions that stand alike, where the script of the one has a stop that the script of
the other has not. Up to there both say to go on. -/
structure Interrupted (script : σ → Answers) (script' : τ → Answers) (inputs : List Input)
    (stop : Input) (s : Session σ) (t : Session τ) : Prop where
  running : ∀ input ∈ inputs, input.running = true
  stopping : stop.running = false
  polls : ∃ rest, (script s.host).polls = inputs.map .ok ++ₛ (.ok stop :: rest) ∧
    (script' t.host).polls = inputs.map .ok ++ₛ rest
  presents : (script s.host).presents = (script' t.host).presents
  plays : (script s.host).plays = (script' t.host).plays
  limit : s.limit = t.limit
  standing : s.standing = t.standing

/-- **Stopping and going on is not seen by the program.** A run that may be stopped between
two polls ends. If it is not the stop that ends it, it shows what the run shows that has no
stop before it; if it is, another run after it goes on to show that, with the same end. Both
may be on hosts and with pacings of their own. A run to a limit and one from there to a higher
limit, or to none, are one run to the higher limit, of which nothing but the log differs. -/
theorem resuming_is_invisible {host : Host σ} {other : Host τ} {script : σ → Answers}
    {script' : τ → Answers} {inputs : List Input} {stop : Input} {s : Session σ} {t : Session τ}
    (hhost : host.Follows script) (hother : other.Follows script')
    (hst : Interrupted script script' inputs stop s t) :
    (∃ a o, s.Runs host a o) ∧
      (∀ a o, s.Runs host a o →
        (¬ a.Stopped → ∃ b p, t.Runs other b p ∧ SameToProgram a o b p) ∧
        (a.Stopped → o.result = .ok () ∧
          Matched SameToProgram (Continued host a o o.session) (t.Runs other))) ∧
      ∀ {ρ : Type} (any : Host ρ) (u : Session ρ) (n : Nat) (higher : Option Nat) (a : Account)
        (o : Outcome ρ), u.limit = some n → (∀ k ∈ higher, n ≤ k) → u.Runs any a o →
        o.result = .ok () → n ≤ o.session.frames →
        Matched SameButLog (Continued any a o (o.session.withLimit higher))
          ((u.withLimit higher).Runs any) := by
  obtain ⟨rest, hpolls, hpolls'⟩ := hst.polls
  have hapart : Same (Apart script script' (inputs.map .ok ++ₛ (.ok stop :: rest))
      (inputs.map .ok ++ₛ rest)) s t := by
    refine ⟨⟨(script s.host).presents, (script s.host).plays, ?_, ?_⟩, hst.limit, hst.standing⟩
    · rw [← hpolls]
    · rw [← hpolls', hst.presents, hst.plays]
  obtain ⟨a, o, ho, hgone, hstopped⟩ := stop_unseen hhost hother hst.running hst.stopping hapart
  refine ⟨⟨a, o, ho⟩, fun b p hp => ?_, ?_⟩
  · obtain ⟨rfl, rfl⟩ := ho.unique hp
    exact ⟨hgone, hstopped⟩
  · intro ρ any u n higher c p hu hhigher hp hok hreached
    exact limit_unseen hu hhigher hp hok hreached

/-! ### A pause after one frame -/

/-- A session that is stopped after a frame and that has another to come. -/
def paused (m : Machine) (limit : Nat) : Session Script :=
  new m ⟨[.ok ⟨true, .released⟩, .ok Script.stop, .ok ⟨true, .released⟩], [], [], 0, 0⟩
    (.new .unlimited 0) (some limit)

/-- The same frames in a row, with another pacing and a slow host. -/
def unpaused (m : Machine) (limit : Nat) : Session Script :=
  new m ⟨[.ok ⟨true, .released⟩, .ok ⟨true, .released⟩], [], [], 250, 1000⟩ (.new .exact 3)
    (some limit)

theorem interrupted_paused (m : Machine) (limit : Nat) :
    Interrupted Script.answers Script.answers [⟨true, .released⟩] Script.stop (paused m limit)
      (unpaused m limit) where
  running input h := by rw [List.mem_singleton.1 h]
  stopping := rfl
  polls := by
    refine ⟨fun n => [Except.ok ⟨true, .released⟩].getD n (.ok Script.stop), ?_, ?_⟩
    · funext n
      rcases n with _ | _ | n <;> rfl
    · funext n
      rcases n with _ | n <;> rfl
  presents := rfl
  plays := rfl
  limit := rfl
  standing := rfl

/-- The paused session with its first frame shown. -/
def pausedShown (m n : Machine) (limit : Nat) : Session Script :=
  { (paused m limit).asked Script.host with machine := n, frames := 1 }

theorem leads_paused {m n : Machine} (hm : m.frame .released = (n, .ok ()))
    {picture sound : ByteArray} (hp : n.picture? = some picture) (ha : n.sound? = some sound)
    (limit : Nat) :
    ∃ a es, Leads Script.host (paused m (limit + 1)) a es (pausedShown m n (limit + 1)) := by
  have hframe : ((paused m (limit + 1)).asked Script.host).frame Script.host .released =
      ⟨pausedShown m n (limit + 1), [.call (.present picture), .call (.play sound)], .ok ()⟩ := by
    have hlive : ((paused m (limit + 1)).asked Script.host).standing.Live := nofun
    exact frame_of_taken hlive hm hp ha rfl rfl
  have hround : (paused m (limit + 1)).round Script.host = .again (pausedShown m n (limit + 1))
      [.call .poll, .call (.present picture), .call (.play sound)] := by
    show playFrame Script.host .released ((paused m (limit + 1)).asked Script.host) = _
    rw [playFrame, hframe]
    rfl
  exact ⟨_, _, .round hround .refl⟩

/-- A machine of zeros shows a frame, is stopped, and goes on as if it had not been; and so it
does where a limit of one frame is raised to two. -/
theorem pause_is_invisible :
    Script.host.Follows Script.answers ∧
      Interrupted Script.answers Script.answers [⟨true, .released⟩] Script.stop (paused .blank 2)
        (unpaused .blank 2) ∧
      (∃ a o, (paused .blank 2).Runs Script.host a o ∧ a.Stopped ∧ o.session.frames = 1 ∧
        ∃ b p c q, (unpaused .blank 2).Runs Script.host b p ∧
          Continued Script.host a o o.session c q ∧ SameToProgram c q b p) ∧
      ∃ a o, (paused .blank 1).Runs Script.host a o ∧ o.session.frames = 1 ∧
        Matched SameButLog (Continued Script.host a o (o.session.withLimit (some 2)))
          (((paused .blank 1).withLimit (some 2)).Runs Script.host) := by
  have hfull : Machine.blank.Full := Memory.size_blank _
  have hframe := Machine.frame_of_waiting hfull.five_le Machine.fetch_start_blank
  have hshown := Machine.full_frame .released hfull
  rw [hframe] at hshown
  obtain ⟨picture, hp⟩ := Machine.exists_picture (Machine.picture_le_of_full hshown)
  obtain ⟨sound, ha⟩ := Machine.exists_sound (Machine.sound_le_of_full hshown)
  -- Nothing else of the blank machine matters.
  generalize Machine.blank = m at hframe hp ha ⊢
  obtain ⟨-, hruns, hlimits⟩ := resuming_is_invisible Script.host_follows Script.host_follows
    (interrupted_paused m 2)
  refine ⟨Script.host_follows, interrupted_paused m 2, ?_, ?_⟩
  · obtain ⟨a, es, hleads⟩ := leads_paused hframe hp ha 1
    have hstop := hleads.loops_iff.2 ⟨_, _, loops_of_stop rfl rfl rfl, rfl, rfl⟩
    have ho := runs_iff_loops.2 ⟨_, hstop, rfl⟩
    have hstopped : (a ++ ⟨[.poll (.ok Script.stop)], []⟩).Stopped :=
      Account.stopped_append.2 (.inl ⟨_, rfl, rfl⟩)
    obtain ⟨b, last, hlast⟩ := exists_loops_of_limit (s := unpaused m 2) Script.host rfl
    have hb : (unpaused m 2).Runs Script.host b _ := runs_iff_loops.2 ⟨last, hlast, rfl⟩
    obtain ⟨c, q, hc, hsame⟩ := ((hruns _ _ ho).2 hstopped).2.right hb
    exact ⟨_, _, ho, hstopped, rfl, _, _, c, q, hb, hc, hsame⟩
  · obtain ⟨a, es, hleads⟩ := leads_paused hframe hp ha 0
    have hlimit := hleads.loops_iff.2 ⟨_, _, loops_of_limitReached rfl, rfl, rfl⟩
    have ho := runs_iff_loops.2 ⟨_, hlimit, rfl⟩
    have hhigher : ∀ k ∈ some 2, 1 ≤ k := by
      intro k hk
      cases hk
      decide
    exact ⟨_, _, ho, rfl, hlimits Script.host _ 1 (some 2) _ _ rfl hhigher ho rfl (Nat.le_refl 1)⟩

end ByteByteJump.Session
