import ByteByteJump.Proofs.Session.Conduct

/-! How a run ends, whatever number of rounds that takes.

A run that may take so many rounds ends within them or is cut off. `Runs` says how it
ends when it is not cut off; it does not end in two ways (`Runs.unique`). The same is
said round by round of the loop inside it (`Loops`): the loop ends where a round does,
or it ends as it does after the first round. -/
namespace ByteByteJump.Session

variable {σ : Type} {host : Host σ} {s t : Session σ} {a b : Account} {o p : Outcome σ}

/-- A round after which the loop goes on takes its course. -/
theorem takes_of_again {events : List Event} (h : s.round host = .again t events) :
    Takes (fun a ns y _ => RoundCourse s.limit s.standing a ns y none) s (s.roundAccount host)
      ⟨t, events, .ok ()⟩ := by
  rcases round_takes host s with ⟨o, hround, -⟩ | ⟨next, _, hround, htakes⟩
  · cases hround.symm.trans h
  · cases hround.symm.trans h
    exact htakes

theorem takes_of_over (h : s.round host = .over o) :
    Takes (fun a ns y r => RoundCourse s.limit s.standing a ns y (some r)) s
      (s.roundAccount host) o := by
  rcases round_takes host s with ⟨last, hround, htakes⟩ | ⟨t, _, hround, -⟩
  · cases hround.symm.trans h
    exact htakes
  · cases hround.symm.trans h

theorem round_of_limitReached (host : Host σ) (h : s.limitReached = true) :
    s.round host = .over (s.close (.limitReached s.frames)) ∧ s.roundAccount host = .empty :=
  ⟨if_pos h, if_pos h⟩

/-! ### Ends of runs and of loops -/

/-- The run of a session ends with this account and in this way. -/
def Runs (host : Host σ) (s : Session σ) (a : Account) (o : Outcome σ) : Prop :=
  ∃ fuel, s.run host fuel = some o ∧ s.runAccount host fuel = a

/-- The frame loop of a session ends with this account and in this way. -/
inductive Loops (host : Host σ) : Session σ → Account → Outcome σ → Prop where
  | last {s : Session σ} {o : Outcome σ} (h : s.round host = .over o) :
      Loops host s (s.roundAccount host) o
  | next {s t : Session σ} {events : List Event} {a : Account} {o : Outcome σ}
      (h : s.round host = .again t events) (ht : Loops host t a o) :
      Loops host s (s.roundAccount host ++ a) (o.after events)

theorem loops_of_rounds {fuel : Nat} (h : s.rounds host fuel = some o) :
    Loops host s (s.runAccount host fuel) o := by
  induction fuel generalizing s o with
  | zero => cases h
  | succ fuel ih =>
    rw [rounds] at h
    rw [runAccount]
    rcases hround : s.round host with last | ⟨next, events⟩
    · simp only [hround, Option.some.injEq] at h
      subst h
      simp only [Account.append_empty]
      exact .last hround
    · simp only [hround, Option.map_eq_some_iff] at h
      obtain ⟨last, hlast, rfl⟩ := h
      exact .next hround (ih hlast)

theorem Loops.exists_rounds (h : Loops host s a o) :
    ∃ fuel, s.rounds host fuel = some o ∧ s.runAccount host fuel = a := by
  induction h with
  | last h =>
    refine ⟨1, ?_, ?_⟩
    · rw [rounds, h]
    · rw [runAccount, h, Account.append_empty]
  | next h _ ih =>
    obtain ⟨fuel, hrounds, haccount⟩ := ih
    refine ⟨fuel + 1, ?_, ?_⟩
    · simp only [rounds, h, hrounds, Option.map_some]
    · simp only [runAccount, h, haccount]

theorem runs_iff_loops :
    s.Runs host a o ↔
      ∃ last, Loops host s a last ∧ o = last.after [.notice (.running s.pacer.pacing)] := by
  constructor
  · rintro ⟨fuel, hrun, rfl⟩
    obtain ⟨last, hlast, rfl⟩ := Option.map_eq_some_iff.1 hrun
    exact ⟨last, loops_of_rounds hlast, rfl⟩
  · rintro ⟨last, hlast, rfl⟩
    obtain ⟨fuel, hrounds, haccount⟩ := hlast.exists_rounds
    exact ⟨fuel, by rw [run, hrounds, Option.map_some], haccount⟩

theorem Loops.unique (h : Loops host s a o) (h' : Loops host s b p) : a = b ∧ o = p := by
  induction h generalizing b p with
  | last h =>
    cases h' with
    | last h' =>
      cases h.symm.trans h'
      exact ⟨rfl, rfl⟩
    | next h' => cases h.symm.trans h'
  | next h _ ih =>
    cases h' with
    | last h' => cases h.symm.trans h'
    | next h' hrest =>
      cases h.symm.trans h'
      obtain ⟨rfl, rfl⟩ := ih hrest
      exact ⟨rfl, rfl⟩

/-- A run ends in one way only. -/
theorem Runs.unique (h : s.Runs host a o) (h' : s.Runs host b p) : a = b ∧ o = p := by
  obtain ⟨last, hlast, rfl⟩ := runs_iff_loops.1 h
  obtain ⟨last', hlast', rfl⟩ := runs_iff_loops.1 h'
  obtain ⟨rfl, rfl⟩ := hlast.unique hlast'
  exact ⟨rfl, rfl⟩

/-- A run that ends takes a course. -/
theorem Runs.takes (h : s.Runs host a o) : Takes (RunCourse s.limit s.standing) s a o := by
  obtain ⟨fuel, hrun, rfl⟩ := h
  exact run_takes hrun

/-- At its limit a session's loop is over at once. -/
theorem loops_of_limitReached (h : s.limitReached = true) :
    Loops host s .empty (s.close (.limitReached s.frames)) := by
  obtain ⟨hround, hnothing⟩ := round_of_limitReached host h
  exact hnothing ▸ .last hround

/-- A host that is not running stops the loop. -/
theorem loops_of_stop {stop : Input} (h : s.limitReached = false)
    (hpolled : s.polled host = .ok stop) (hstop : stop.running = false) :
    Loops host s ⟨[.poll (.ok stop)], []⟩
      (((s.asked host).close (.hostStopped s.frames)).after [.call .poll]) := by
  have hround : s.round host =
      .over (((s.asked host).close (.hostStopped s.frames)).after [.call .poll]) := by
    rw [Session.round, if_neg (ne_true_of_eq_false h), pollFrame_eq, hpolled]
    exact if_neg (ne_true_of_eq_false hstop)
  have haccount : s.roundAccount host = ⟨[.poll (.ok stop)], []⟩ := by
    unfold roundAccount
    rw [if_neg (ne_true_of_eq_false h), hpolled]
    simp only [hstop, Bool.false_eq_true, if_false, Account.append_empty]
  exact haccount ▸ .last hround

/-! ### Part of the way -/

/-- The first rounds of a loop, none of which ends it. -/
inductive Leads (host : Host σ) : Session σ → Account → List Event → Session σ → Prop where
  | refl {s : Session σ} : Leads host s .empty [] s
  | round {s t u : Session σ} {events es : List Event} {a : Account}
      (h : s.round host = .again t events) (ht : Leads host t a es u) :
      Leads host s (s.roundAccount host ++ a) (events ++ es) u

variable {es : List Event}

/-- A loop ends as it does from where its first rounds lead. -/
theorem Leads.loops_iff (h : Leads host s b es t) :
    Loops host s a o ↔ ∃ c p, Loops host t c p ∧ a = b ++ c ∧ o = p.after es := by
  induction h generalizing a o with
  | refl =>
    constructor
    · exact fun hloops => ⟨a, o, hloops, rfl, rfl⟩
    · rintro ⟨c, p, hloops, rfl, rfl⟩
      exact hloops
  | @round s t u events es b h _ ih =>
    constructor
    · intro hloops
      cases hloops with
      | last hover => cases h.symm.trans hover
      | next hagain ht =>
        cases h.symm.trans hagain
        obtain ⟨c, p, hc, rfl, rfl⟩ := ih.1 ht
        refine ⟨c, p, hc, (Account.append_assoc ..).symm, ?_⟩
        simp only [Outcome.after, List.append_assoc]
    · rintro ⟨c, p, hc, rfl, rfl⟩
      have hloops := Loops.next h (ih.2 ⟨c, p, hc, rfl, rfl⟩)
      rw [← Account.append_assoc] at hloops
      simp only [Outcome.after, List.append_assoc] at hloops ⊢
      exact hloops

/-- So a run comes out as one from there does, with what was before in its account. -/
theorem Leads.runs (h : Leads host s b es t) (ht : t.Runs host a o) :
    ∃ p, s.Runs host (b ++ a) p ∧ p.session = o.session ∧ p.result = o.result := by
  obtain ⟨last, hlast, rfl⟩ := runs_iff_loops.1 ht
  exact ⟨_, runs_iff_loops.2 ⟨_, h.loops_iff.2 ⟨a, last, hlast, rfl, rfl⟩, rfl⟩, rfl, rfl⟩

theorem Leads.exists_runs (h : Leads host s b es t) (hs : s.Runs host a o) :
    ∃ c p, t.Runs host c p ∧ a = b ++ c ∧ p.session = o.session ∧ p.result = o.result := by
  obtain ⟨last, hlast, rfl⟩ := runs_iff_loops.1 hs
  obtain ⟨c, p, hp, rfl, rfl⟩ := h.loops_iff.1 hlast
  exact ⟨c, _, runs_iff_loops.2 ⟨p, hp, rfl⟩, rfl, rfl, rfl⟩

/-- A loop is some rounds that go on and one that ends it. -/
theorem Loops.exists_leads (h : Loops host s a o) :
    ∃ t b es last, Leads host s b es t ∧ t.round host = .over last ∧
      a = b ++ t.roundAccount host ∧ o = last.after es := by
  induction h with
  | last h => exact ⟨_, _, _, _, .refl, h, rfl, rfl⟩
  | next h _ ih =>
    obtain ⟨t, b, es, last, hleads, hlast, rfl, rfl⟩ := ih
    refine ⟨t, _, _, last, .round h hleads, hlast, (Account.append_assoc ..).symm, ?_⟩
    simp only [Outcome.after, List.append_assoc]

end ByteByteJump.Session
