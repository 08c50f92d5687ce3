import ByteByteJump.Proofs.Session.Conduct

/-! Sessions that are dealt with alike.

Two sessions may stand in front of two hosts. As long as the hosts answer alike, a frame
says the same to both and leaves sessions that stand alike (`Same.frame`), and so does a
round of the loop if its poll is answered alike as well (`round_alike`). What the hosts
do when they are polled does not matter in between, so that they may be scripts that part
later on. -/
namespace ByteByteJump

variable {σ τ : Type}

/-- Two hosts, each with a pacer, that agree from one poll to the next: in states which `R`
relates they take the same outputs and spend their time so that `R` is kept. -/
structure Host.AgreesBetweenPolls (host : Host σ) (other : Host τ)
    (R : Pacer × σ → Pacer × τ → Prop) : Prop where
  start : ∀ {p a q b}, R (p, a) (q, b) → R (p.startNow host a) (q.startNow other b)
  wait : ∀ {p a q b}, R (p, a) (q, b) →
    R ((p.wait host a).1, (p.wait host a).2.1) ((q.wait other b).1, (q.wait other b).2.1)
  present : ∀ {p a q b}, R (p, a) (q, b) → ∀ picture,
    (host.present picture a).1 = (other.present picture b).1 ∧
      R (p, (host.present picture a).2) (q, (other.present picture b).2)
  play : ∀ {p a q b}, R (p, a) (q, b) → ∀ sound,
    (host.play sound a).1 = (other.play sound b).1 ∧
      R (p, (host.play sound a).2) (q, (other.play sound b).2)

namespace Session

/-- Sessions that stand alike in front of related hosts. -/
structure Same (R : Pacer × σ → Pacer × τ → Prop) (s : Session σ) (t : Session τ) : Prop where
  host : R (s.pacer, s.host) (t.pacer, t.host)
  limit : s.limit = t.limit
  standing : s.standing = t.standing

/-- Outcomes that the host and the owner see alike. -/
structure SameEnd (R : Pacer × σ → Pacer × τ → Prop) (o : Outcome σ) (p : Outcome τ) : Prop where
  result : o.result = p.result
  session : Same R o.session p.session

section Alike
variable {host : Host σ} {other : Host τ} {R : Pacer × σ → Pacer × τ → Prop} {s : Session σ}
  {t : Session τ} {keys : Keypad}

theorem limitReached_congr (hlimit : s.limit = t.limit) (hframes : s.frames = t.frames) :
    t.limitReached = s.limitReached := by
  unfold limitReached
  rw [hlimit, hframes]

/-! ### One frame -/

theorem playSound_same (hh : host.AgreesBetweenPolls other R) (h : Same R s t) :
    s.playExchanges host = t.playExchanges other ∧
      SameEnd R (s.playSound host) (t.playSound other) := by
  obtain ⟨machine, state, pacer, phase, frames, limit⟩ := s
  obtain ⟨_, state', pacer', _, _, _⟩ := t
  obtain ⟨hhost, hlimit, hstanding⟩ := h
  cases hlimit
  cases hstanding
  unfold playExchanges playSound
  cases machine.sound? with
  | none => exact ⟨rfl, rfl, hhost, rfl, rfl⟩
  | some sound =>
    obtain ⟨hanswer, hafter⟩ := hh.play hhost sound
    rcases hs : host.play sound state with ⟨e | _, after⟩ <;>
      rcases ht : other.play sound state' with ⟨f | _, after'⟩ <;>
      rw [hs, ht] at hanswer hafter <;> cases hanswer <;> simp only [hs, ht]
    · exact ⟨trivial, rfl, hafter, rfl, rfl⟩
    · exact ⟨trivial, rfl, hafter, rfl, rfl⟩

theorem deliver_same (hh : host.AgreesBetweenPolls other R) (h : Same R s t) :
    s.deliverExchanges host = t.deliverExchanges other ∧
      SameEnd R (s.deliver host) (t.deliver other) := by
  obtain ⟨machine, state, pacer, phase, frames, limit⟩ := s
  obtain ⟨_, state', pacer', _, _, _⟩ := t
  obtain ⟨hhost, hlimit, hstanding⟩ := h
  cases hlimit
  cases hstanding
  unfold deliverExchanges deliver
  cases machine.picture? with
  | none => exact ⟨rfl, rfl, hhost, rfl, rfl⟩
  | some picture =>
    obtain ⟨hanswer, hafter⟩ := hh.present hhost picture
    rcases hs : host.present picture state with ⟨e | _, after⟩ <;>
      rcases ht : other.present picture state' with ⟨f | _, after'⟩ <;>
      rw [hs, ht] at hanswer hafter <;> cases hanswer <;> simp only [hs, ht]
    · exact ⟨trivial, rfl, hafter, rfl, rfl⟩
    · have hshown : Same R ⟨machine, after, pacer, phase, frames, limit⟩
          ⟨machine, after', pacer', phase, frames, limit⟩ := ⟨hafter, rfl, rfl⟩
      obtain ⟨hexchanges, hend⟩ := playSound_same hh hshown
      exact ⟨congrArg _ hexchanges, hend.result, hend.session⟩

/-- A frame of machines that run it alike. -/
theorem frame_same_of_live (hh : host.AgreesBetweenPolls other R)
    (hhost : R (s.pacer, s.host) (t.pacer, t.host)) (hlimit : s.limit = t.limit)
    (hframes : s.frames = t.frames) (hs : s.standing.Live) (ht : t.standing.Live)
    (hm : t.machine.frame keys = s.machine.frame keys) :
    (s.frameAccount host keys).exchanges = (t.frameAccount other keys).exchanges ∧
      SameEnd R (s.frame host keys) (t.frame other keys) := by
  rw [frame_of_live hs, frame_of_live ht, frameAccount_of_live hs, frameAccount_of_live ht, hm,
    hframes]
  rcases s.machine.frame keys with ⟨m, (f | _) | _⟩
  · exact ⟨rfl, rfl, hhost, hlimit, rfl⟩
  · exact ⟨rfl, rfl, hhost, hlimit, rfl⟩
  · exact deliver_same hh ⟨hhost, hlimit, rfl⟩

/-- A frame that both refuse. -/
theorem frame_same_of_aborted (h : Same R s t) {f : Fault} (hs : s.phase = .aborted f) :
    (s.frameAccount host keys).exchanges = (t.frameAccount other keys).exchanges ∧
      SameEnd R (s.frame host keys) (t.frame other keys) := by
  have ht : t.phase = .aborted f := (congrArg Standing.phase h.standing).symm.trans hs
  rw [frame_of_aborted hs, frame_of_aborted ht, frameAccount_of_aborted hs,
    frameAccount_of_aborted ht]
  exact ⟨rfl, rfl, h⟩

/-- **A frame is the same to sessions that stand alike.** -/
theorem Same.frame (hh : host.AgreesBetweenPolls other R) (h : Same R s t) (keys : Keypad) :
    (s.frameAccount host keys).exchanges = (t.frameAccount other keys).exchanges ∧
      SameEnd R (s.frame host keys) (t.frame other keys) := by
  rcases s.standing.live_or_aborted with hs | ⟨f, hf⟩
  · have hm : t.machine = s.machine := (congrArg Standing.machine h.standing).symm
    have hframes : s.frames = t.frames := congrArg Standing.frames h.standing
    exact frame_same_of_live hh h.host h.limit hframes hs (h.standing ▸ hs) (by rw [hm])
  · exact frame_same_of_aborted h hf

/-! ### One round -/

/-- Rounds that both end the loop, with the same result and in sessions that `E` relates, or
both leave it to go on. -/
inductive RoundsAlike (E : Session σ → Session τ → Prop) (R : Pacer × σ → Pacer × τ → Prop) :
    Round σ → Round τ → Prop where
  | last {o : Outcome σ} {p : Outcome τ} (hresult : o.result = p.result)
      (h : E o.session p.session) : RoundsAlike E R (.over o) (.over p)
  | next {s : Session σ} {t : Session τ} {events events' : List Event} (h : Same R s t) :
      RoundsAlike E R (.again s events) (.again t events')

variable {E : Session σ → Session τ → Prop}

theorem playFrame_alike (hh : host.AgreesBetweenPolls other R)
    (hE : ∀ {s t}, Same R s t → E s t) (h : SameEnd R (s.frame host keys) (t.frame other keys)) :
    RoundsAlike E R (playFrame host keys s) (playFrame other keys t) := by
  unfold playFrame
  rcases hs : s.frame host keys with ⟨s', events, r⟩
  rcases ht : t.frame other keys with ⟨t', events', r'⟩
  rw [hs, ht] at h
  obtain ⟨hresult, hsame⟩ := h
  cases hresult
  cases r with
  | error e => exact .last rfl (hE hsame)
  | ok _ => exact .next ⟨hh.wait hsame.host, hsame.limit, hsame.standing⟩

/-- **A round is alike to sessions** that are at their limit together, are answered alike when
they poll, and do the same with a frame. -/
theorem round_alike (hh : host.AgreesBetweenPolls other R) (hE : ∀ {s t}, Same R s t → E s t)
    (hlimit : t.limitReached = s.limitReached) (hreached : s.limitReached = true → E s t)
    (hpolled : s.limitReached = false → s.polled host = t.polled other)
    (hasked : s.limitReached = false → (s.roundAccount host).attempts = [] →
      E (s.asked host) (t.asked other))
    (hframe : s.limitReached = false → ∀ keys, s.polled host = .ok ⟨true, keys⟩ →
      ((s.asked host).frameAccount host keys).exchanges =
          ((t.asked other).frameAccount other keys).exchanges ∧
        SameEnd R ((s.asked host).frame host keys) ((t.asked other).frame other keys)) :
    (s.roundAccount host).exchanges = (t.roundAccount other).exchanges ∧
      RoundsAlike E R (s.round host) (t.round other) := by
  unfold Session.round
  unfold roundAccount at hasked ⊢
  rw [hlimit]
  cases hl : s.limitReached with
  | true =>
    simp only [if_true]
    exact ⟨trivial, .last rfl (hreached hl)⟩
  | false =>
    simp only [hl, Bool.false_eq_true, if_false] at hasked ⊢
    rw [pollFrame_eq, pollFrame_eq, ← hpolled hl]
    cases hp : s.polled host with
    | error e =>
      rw [hp] at hasked
      exact ⟨rfl, .last rfl (hasked trivial rfl)⟩
    | ok input =>
      obtain ⟨_ | _, keys⟩ := input
      · rw [hp] at hasked
        simp only [Bool.false_eq_true, if_false, Account.append_empty] at hasked ⊢
        exact ⟨trivial, .last rfl (hasked trivial trivial)⟩
      · obtain ⟨hexchanges, hend⟩ := hframe hl keys hp
        simp only [if_true]
        exact ⟨congrArg (Exchange.poll (.ok ⟨true, keys⟩) :: ·) hexchanges,
          playFrame_alike hh hE hend⟩

end Alike

end Session

end ByteByteJump
