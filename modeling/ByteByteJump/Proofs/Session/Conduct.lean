import ByteByteJump.Proofs.Session.Course

/-! Sessions take courses.

`frame_takes` and `run_takes` say that what a session does with a frame or with a
run of the loop, told in its account, is a course from its standing, and that the
account has the calls of the events. Nothing is left of the pacer but silent lines
in the log: waiting for a period and closing a run add no calls and no errors. -/
namespace ByteByteJump.Session

variable {σ : Type} {host : Host σ}

def standing (s : Session σ) : Standing := ⟨s.machine, s.phase, s.frames⟩

@[simp] theorem machine_standing (s : Session σ) : s.standing.machine = s.machine := rfl

/-- An operation with its account takes one of the ways that a course describes. -/
structure Takes (Course : Account → List Notice → Standing → Except (Stop Failure) Unit → Prop)
    (s : Session σ) (a : Account) (o : Outcome σ) : Prop where
  course : Course a (errors o.events) o.session.standing o.result
  calls : calls o.events = a.exchanges.map Exchange.call
  limit : o.session.limit = s.limit

/-! ### One frame -/

/-- A frame that is not refused: whatever the phase was, the machine runs. -/
theorem frame_of_live {s : Session σ} (hs : s.standing.Live) (keys : Keypad) :
    s.frame host keys =
      match s.machine.frame keys with
      | (machine, .error .outOfRange) =>
        ⟨{ s with machine, phase := .running }, [], .error .outOfRange⟩
      | (machine, .error (.failed f)) =>
        ⟨{ s with machine, phase := .aborted f },
          [.notice (.frameAborted s.frames machine.executed f)], .error (.failed (.fault f))⟩
      | (machine, .ok ()) => deliver host { s with machine, phase := .idle } := by
  obtain ⟨machine, state, pacer, phase, frames, limit⟩ := s
  cases phase with
  | idle => rfl
  | running => rfl
  | aborted f => exact absurd rfl (hs f)

theorem frameAccount_of_live {s : Session σ} (hs : s.standing.Live) (keys : Keypad) :
    s.frameAccount host keys =
      ⟨match s.machine.frame keys with
        | (machine, .ok ()) => deliverExchanges host { s with machine, phase := .idle }
        | _ => [], [s.standing.attempt keys]⟩ := by
  obtain ⟨machine, state, pacer, phase, frames, limit⟩ := s
  cases phase with
  | idle => rfl
  | running => rfl
  | aborted f => exact absurd rfl (hs f)

/-- An aborted session does nothing at all when asked for a frame. -/
theorem frame_of_aborted {s : Session σ} {f : Fault} (hs : s.phase = .aborted f) (keys : Keypad) :
    s.frame host keys = ⟨s, [], .error (.failed (.fault f))⟩ := by
  obtain ⟨machine, state, pacer, phase, frames, limit⟩ := s
  cases hs
  rfl

theorem frameAccount_of_aborted {s : Session σ} {f : Fault} (hs : s.phase = .aborted f)
    (keys : Keypad) : s.frameAccount host keys = .empty := by
  unfold frameAccount
  rw [hs]

/-- A frame whose picture and sound the host takes counts. -/
theorem frame_of_taken {s : Session σ} {keys : Keypad} (hs : s.standing.Live) {m : Machine}
    (hm : s.machine.frame keys = (m, .ok ())) {picture sound : ByteArray}
    (hp : m.picture? = some picture) (ha : m.sound? = some sound) {state after : σ}
    (hpresent : host.present picture s.host = (.ok (), state))
    (hplay : host.play sound state = (.ok (), after)) :
    s.frame host keys =
      ⟨{ s with machine := m, host := after, phase := .idle, frames := s.frames + 1 },
        [.call (.present picture), .call (.play sound)], .ok ()⟩ := by
  rw [frame_of_live hs, hm]
  simp only [deliver, hp, hpresent, playSound, ha, hplay, Outcome.after, List.cons_append,
    List.nil_append]

/-- The picture and the sound are handed out in order, and the machine stays as it is. -/
theorem deliver_course (host : Host σ) (s : Session σ) :
    Delivery s.machine s.frames (s.deliverExchanges host) (s.deliver host).session.frames
        (s.deliver host).result ∧
      Takes (fun _ ns y _ => ns = [] ∧ y = ⟨s.machine, s.phase, (s.deliver host).session.frames⟩) s
        ⟨s.deliverExchanges host, []⟩ (s.deliver host) := by
  unfold deliver deliverExchanges
  cases hp : s.machine.picture? with
  | none => exact ⟨.unshown hp, ⟨rfl, rfl⟩, rfl, rfl⟩
  | some p =>
    rcases hpresent : host.present p s.host with ⟨e | _, state⟩
    · simp only [hpresent]
      exact ⟨.presentFailed hp, ⟨rfl, rfl⟩, rfl, rfl⟩
    · simp only [hpresent, playSound, playExchanges]
      cases ha : s.machine.sound? with
      | none => exact ⟨.unheard hp ha, ⟨rfl, rfl⟩, rfl, rfl⟩
      | some a =>
        rcases hplay : host.play a state with ⟨e | _, after⟩
        · simp only [hplay]
          exact ⟨.playFailed hp ha, ⟨rfl, rfl⟩, rfl, rfl⟩
        · simp only [hplay]
          exact ⟨.complete hp ha, ⟨rfl, rfl⟩, rfl, rfl⟩

/-- **Every frame takes its course.** -/
theorem frame_takes (host : Host σ) (keys : Keypad) (s : Session σ) :
    Takes (FrameCourse keys s.standing) s (s.frameAccount host keys) (s.frame host keys) := by
  rcases s.standing.live_or_aborted with hs | ⟨f, hf⟩
  · rw [frame_of_live hs, frameAccount_of_live hs]
    rcases hm : s.machine.frame keys with ⟨m, (f | _) | _⟩
    · exact ⟨.faulted hs hm, rfl, rfl⟩
    · exact ⟨.stuck hs hm, rfl, rfl⟩
    · obtain ⟨hdelivery, ⟨hsilent, hstanding⟩, hcalls, hlimit⟩ :=
        deliver_course host { s with machine := m, phase := .idle }
      refine ⟨?_, hcalls, hlimit⟩
      rw [hsilent, hstanding]
      exact .delivered hs hm hdelivery
  · rw [frame_of_aborted hf, frameAccount_of_aborted hf]
    exact ⟨.refused hf, rfl, rfl⟩

/-! ### Waiting and closing -/

@[simp] theorem calls_notices (ns : List Notice) : calls (ns.map .notice) = [] := by
  induction ns with
  | nil => rfl
  | cons n ns ih => exact ih

theorem errors_notices {ns : List Notice} (h : ∀ n ∈ ns, n.level ≠ .error) :
    errors (ns.map .notice) = [] := by
  induction ns with
  | nil => rfl
  | cons n ns ih =>
    have hn : Event.error? (.notice n) = none := if_neg (h n (.head _))
    rw [List.map_cons, errors, List.filterMap_cons_none hn]
    exact ih fun k hk => h k (.tail _ hk)

theorem level_of_mem_remaining {p : Pacer} {now : Nat} {n : Notice}
    (h : n ∈ (p.remaining now).2.2) : n.level ≠ .error := by
  unfold Pacer.remaining at h
  split at h
  · cases h
  · split at h
    · cases List.mem_singleton.1 h
      nofun
    · cases h

theorem waitOut_eq (host : Host σ) (s : Session σ) (events : List Event) :
    ∃ t waits, waitOut host s events = .again t (events ++ waits) ∧ t.standing = s.standing ∧
      t.limit = s.limit ∧ calls waits = [] ∧ errors waits = [] :=
  ⟨_, _, rfl, rfl, rfl, calls_notices _, errors_notices fun _ h => level_of_mem_remaining h⟩

theorem calls_close (s : Session σ) (last : Notice) : calls (s.close last).events = [] := by
  show calls (.notice last :: if s.pacer.overruns = 0 then [] else _) = []
  split <;> rfl

theorem errors_close {s : Session σ} {last : Notice} (h : last.level ≠ .error) :
    errors (s.close last).events = [] := by
  have hlast : Event.error? (.notice last) = none := if_neg h
  show errors (.notice last :: if s.pacer.overruns = 0 then [] else _) = []
  rw [errors, List.filterMap_cons_none hlast]
  split <;> rfl

/-! ### One round -/

theorem limitReached_iff (s : Session σ) : s.limitReached = true ↔ Reached s.limit s.frames := by
  unfold limitReached Reached
  cases s.limit <;> simp

theorem poll_startPeriod (s : Session σ) :
    host.poll (s.startPeriod host).host = (s.polled host, (s.asked host).host) := rfl

theorem pollFrame_eq (host : Host σ) (s : Session σ) :
    pollFrame host (s.startPeriod host) =
      match s.polled host with
      | .error e => .over ⟨s.asked host, [.call .poll], .error (.failed e)⟩
      | .ok input =>
        if input.running then playFrame host input.keys (s.asked host)
        else .over (((s.asked host).close (.hostStopped s.frames)).after [.call .poll]) := by
  rw [pollFrame, poll_startPeriod]
  cases s.polled host <;> rfl

/-- A round is over, or goes on from the session that its waiting leaves. -/
theorem round_takes (host : Host σ) (s : Session σ) :
    (∃ o, s.round host = .over o ∧
      Takes (fun a ns y r => RoundCourse s.limit s.standing a ns y (some r)) s
        (s.roundAccount host) o) ∨
    (∃ t events, s.round host = .again t events ∧
      Takes (fun a ns y _ => RoundCourse s.limit s.standing a ns y none) s
        (s.roundAccount host) ⟨t, events, .ok ()⟩) := by
  unfold round roundAccount
  by_cases hl : s.limitReached = true
  · rw [if_pos hl, if_pos hl]
    refine .inl ⟨_, rfl, ?_, calls_close s _, rfl⟩
    rw [errors_close]
    · exact .limit ((limitReached_iff s).1 hl)
    · nofun
  · rw [if_neg hl, if_neg hl, pollFrame_eq]
    rw [limitReached_iff] at hl
    cases hp : s.polled host with
    | error e => exact .inl ⟨_, rfl, .pollFailed hl, rfl, rfl⟩
    | ok input =>
      simp only
      cases hi : input.running with
      | false =>
        simp only [Bool.false_eq_true, if_false, Account.append_empty]
        refine .inl ⟨_, rfl, ?_, congrArg (Call.poll :: ·) (calls_close _ _), rfl⟩
        rw [Outcome.after, errors_append, errors_close]
        · exact .stopped hl hi
        · nofun
      | true =>
        simp only [if_true, playFrame]
        have hframe := frame_takes host input.keys (s.asked host)
        rcases hf : (s.asked host).frame host input.keys with ⟨t, events, e | _⟩
        · rw [hf] at hframe
          exact .inl ⟨_, rfl, .cut hl hi hframe.course, congrArg (Call.poll :: ·) hframe.calls,
            hframe.limit⟩
        · rw [hf] at hframe
          obtain ⟨u, waits, hwait, hstanding, hlimit, hcalls, herrors⟩ :=
            waitOut_eq host t (.call .poll :: events)
          refine .inr ⟨u, _, hwait, ?_, ?_, hlimit.trans hframe.limit⟩
          · simp only [List.cons_append, errors_call_cons, errors_append, herrors, List.append_nil]
            rw [hstanding]
            exact .played hl hi hframe.course
          · simp [hcalls, hframe.calls, Exchange.call]

/-! ### The loop -/

theorem rounds_takes {host : Host σ} {fuel : Nat} {s : Session σ} {o : Outcome σ}
    (h : s.rounds host fuel = some o) :
    Takes (RunCourse s.limit s.standing) s (s.runAccount host fuel) o := by
  induction fuel generalizing s o with
  | zero => cases h
  | succ fuel ih =>
    rw [rounds] at h
    rw [runAccount]
    rcases round_takes host s with ⟨last, hround, hlast⟩ | ⟨t, events, hround, hfirst⟩
    · simp only [hround, Option.some.injEq] at h
      subst h
      simp only [hround, Account.append_empty]
      exact ⟨.last hlast.course, hlast.calls, hlast.limit⟩
    · simp only [hround, Option.map_eq_some_iff] at h
      obtain ⟨last, hrest, rfl⟩ := h
      have hrun := ih hrest
      rw [hfirst.limit] at hrun
      simp only [hround, Outcome.after]
      refine ⟨?_, ?_, hrun.limit.trans hfirst.limit⟩
      · rw [errors_append]
        exact .next hfirst.course hrun.course
      · rw [calls_append, hfirst.calls, hrun.calls, Account.exchanges_append, List.map_append]

/-- **Every run takes a course.** It depends on the machine, the phase, the frames, the
limit and the answers, and on nothing else. -/
theorem run_takes {host : Host σ} {fuel : Nat} {s : Session σ} {o : Outcome σ}
    (h : s.run host fuel = some o) :
    Takes (RunCourse s.limit s.standing) s (s.runAccount host fuel) o := by
  obtain ⟨last, hlast, rfl⟩ := Option.map_eq_some_iff.1 h
  have hrun := rounds_takes hlast
  exact ⟨hrun.course, hrun.calls, hrun.limit⟩

end ByteByteJump.Session
