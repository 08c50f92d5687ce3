import ByteByteJump.Proofs.Session.Continued
import ByteByteJump.Proofs.Session.Limit

/-! Raising the limit.

Nothing in a round depends on the limit as long as it is not reached, and a run that came
to its limit has done nothing in its last round. Such a run can therefore be continued
with a higher limit as if that had been the limit from the first (`limit_unseen`), in front
of any host: it is not even asked in between. -/
namespace ByteByteJump.Session

variable {σ : Type}

/-- The session with another limit. -/
def withLimit (l : Option Nat) (s : Session σ) : Session σ := { s with limit := l }

def Outcome.withLimit (l : Option Nat) (o : Outcome σ) : Outcome σ :=
  { o with session := o.session.withLimit l }

def Round.withLimit (l : Option Nat) : Round σ → Round σ
  | .over o => .over (o.withLimit l)
  | .again s events => .again (s.withLimit l) events

section Limits
variable {host : Host σ} {s t : Session σ} {l : Option Nat} {n : Nat}

theorem playSound_withLimit (s : Session σ) :
    playSound host (s.withLimit l) = (playSound host s).withLimit l := by
  have hmachine : (s.withLimit l).machine = s.machine := rfl
  have hhost : (s.withLimit l).host = s.host := rfl
  unfold playSound
  rw [hmachine, hhost]
  cases s.machine.sound? with
  | none => rfl
  | some sound =>
    rcases hplay : host.play sound s.host with ⟨e | _, state⟩ <;> simp only [hplay]
    · rfl
    · rfl

theorem deliver_withLimit (s : Session σ) :
    deliver host (s.withLimit l) = (deliver host s).withLimit l := by
  have hmachine : (s.withLimit l).machine = s.machine := rfl
  have hhost : (s.withLimit l).host = s.host := rfl
  unfold deliver
  rw [hmachine, hhost]
  cases s.machine.picture? with
  | none => rfl
  | some picture =>
    rcases hpresent : host.present picture s.host with ⟨e | _, state⟩ <;> simp only [hpresent]
    · rfl
    · exact congrArg (Outcome.after · [.call (.present picture)])
        (playSound_withLimit { s with host := state })

/-- A frame does not look at the limit. -/
theorem frame_withLimit (s : Session σ) (keys : Keypad) :
    (s.withLimit l).frame host keys = (s.frame host keys).withLimit l := by
  rcases s.standing.live_or_aborted with hs | ⟨f, hf⟩
  · have hmachine : (s.withLimit l).machine = s.machine := rfl
    have hs' : (s.withLimit l).standing.Live := hs
    rw [frame_of_live hs, frame_of_live hs', hmachine]
    rcases s.machine.frame keys with ⟨m, (f | _) | _⟩
    · rfl
    · rfl
    · exact deliver_withLimit { s with machine := m, phase := .idle }
  · have hf' : (s.withLimit l).phase = .aborted f := hf
    rw [frame_of_aborted hf, frame_of_aborted hf']
    rfl

theorem playFrame_withLimit (s : Session σ) (keys : Keypad) :
    playFrame host keys (s.withLimit l) = (playFrame host keys s).withLimit l := by
  unfold playFrame
  rw [frame_withLimit]
  rcases s.frame host keys with ⟨t, events, e | _⟩ <;> rfl

theorem pollFrame_withLimit (s : Session σ) :
    pollFrame host (s.withLimit l) = (pollFrame host s).withLimit l := by
  have hhost : (s.withLimit l).host = s.host := rfl
  unfold pollFrame
  rw [hhost]
  rcases host.poll s.host with ⟨e | input, state⟩
  · rfl
  · simp only
    split
    · exact playFrame_withLimit { s with host := state } input.keys
    · rfl

/-- Below both limits a round does not tell them apart. -/
theorem round_withLimit (host : Host σ) (h : s.limitReached = false)
    (hl : (s.withLimit l).limitReached = false) :
    (s.withLimit l).round host = (s.round host).withLimit l ∧
      (s.withLimit l).roundAccount host = s.roundAccount host := by
  constructor
  · unfold Session.round
    rw [if_neg (ne_true_of_eq_false h), if_neg (ne_true_of_eq_false hl)]
    exact pollFrame_withLimit (s.startPeriod host)
  · unfold roundAccount
    rw [if_neg (ne_true_of_eq_false h), if_neg (ne_true_of_eq_false hl)]
    rfl

/-- Rounds that a limit lets happen happen under a higher one. -/
theorem Leads.withLimit {a : Account} {es : List Event} (h : Leads host s a es t)
    (hs : s.limit = some n) (hl : ∀ k ∈ l, n ≤ k) :
    t.limit = some n ∧ Leads host (s.withLimit l) a es (t.withLimit l) := by
  induction h with
  | refl => exact ⟨hs, .refl⟩
  | @round s t u events es a h _ ih =>
    have htakes := takes_of_again h
    have hbelow := htakes.course.shown.1
    obtain ⟨hu, hleads⟩ := ih (htakes.limit.trans hs)
    have hlow : s.limitReached = false :=
      eq_false_of_ne_true (mt (limitReached_iff s).1 hbelow)
    have hlow' : (s.withLimit l).limitReached = false := by
      apply eq_false_of_ne_true
      rw [limitReached_iff]
      rintro ⟨k, hk, hframes⟩
      rw [hs, reached_iff] at hbelow
      exact hbelow (Nat.le_trans (hl k hk) hframes)
    obtain ⟨hround, haccount⟩ := round_withLimit host hlow hlow'
    rw [h] at hround
    rw [← haccount]
    exact ⟨hu, .round hround hleads⟩

/-- The last round of a run that came to its limit has done nothing. -/
theorem exists_leads_of_reached {a : Account} {o : Outcome σ} (hs : s.limit = some n)
    (ho : s.Runs host a o) (hok : o.result = .ok ()) (hreached : n ≤ o.session.frames) :
    ∃ es, Leads host s a es o.session := by
  obtain ⟨last, hlast, rfl⟩ := runs_iff_loops.1 ho
  obtain ⟨t, b, es, final, hleads, hfinal, rfl, rfl⟩ := hlast.exists_leads
  have hlimit : t.limit = some n := (hleads.withLimit (l := none) hs nofun).1
  have hframes : final.session.frames = t.frames := (takes_of_over hfinal).course.frames_eq
  have hthere : t.limitReached = true := by
    rw [limitReached_iff, hlimit, reached_iff, ← hframes]
    exact hreached
  obtain ⟨hclose, hnothing⟩ := round_of_limitReached host hthere
  cases hclose.symm.trans hfinal
  rw [hnothing, Account.append_empty]
  exact ⟨es, hleads⟩

/-- A run to a limit and a run from there to a higher one are one run to the higher one. -/
theorem limit_unseen {a : Account} {o : Outcome σ} (hs : s.limit = some n)
    (hl : ∀ k ∈ l, n ≤ k) (ho : s.Runs host a o) (hok : o.result = .ok ())
    (hreached : n ≤ o.session.frames) :
    Matched SameButLog (Continued host a o (o.session.withLimit l))
      ((s.withLimit l).Runs host) := by
  obtain ⟨es, hleads⟩ := exists_leads_of_reached hs ho hok hreached
  have hhigher := (hleads.withLimit hs hl).2
  constructor
  · rintro c p hp
    have hcalls := hp.calls ho.takes.calls
    obtain ⟨d, q, hq, rfl, rfl⟩ := hp
    obtain ⟨p', hp', hsession, hresult⟩ := hhigher.runs hq
    exact ⟨_, p', hp', rfl, hcalls.trans hp'.takes.calls.symm, hsession.symm, hresult.symm⟩
  · intro c p hp
    obtain ⟨d, q, hq, rfl, hsession, hresult⟩ := hhigher.exists_runs hp
    have hcontinued : Continued host a o (o.session.withLimit l) (a ++ d) (q.after o.events) :=
      ⟨d, q, hq, rfl, rfl⟩
    have hcalls := hcontinued.calls ho.takes.calls
    exact ⟨_, _, hcontinued, rfl, hcalls.trans hp.takes.calls.symm, hsession, hresult⟩

end Limits

end ByteByteJump.Session
