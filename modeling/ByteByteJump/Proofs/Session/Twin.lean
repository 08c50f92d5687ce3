import ByteByteJump.Host.Script
import ByteByteJump.Proofs.Machine.Cell
import ByteByteJump.Proofs.Machine.FullMemory
import ByteByteJump.Proofs.Session.Alike

/-! What one frame leaves to the next is the program alone.

The keys, the program counter and the count are set anew when a frame starts, so
machines with the same bytes from byte 2 on cannot be told apart by frames. Two
sessions over such machines, in front of hosts that answer alike (`Agrees`), are
twins: they say the same to their hosts and come out the same, whatever is done
with both, and from the first frame on they stand alike (`Twins`). The theorem is
one induction over the operations; each of them makes twins of twins. -/
namespace ByteByteJump

/-- Two hosts, each with a pacer, that give the same answers in states which `R` relates, and
go on to such states. A host agrees with itself; hosts that differ only in how long
things take agree as long as no answer shows it. -/
structure Host.Agrees {σ τ : Type} (host : Host σ) (other : Host τ)
    (R : Pacer × σ → Pacer × τ → Prop) : Prop where
  start : ∀ {p a q b}, R (p, a) (q, b) → R (p.startNow host a) (q.startNow other b)
  wait : ∀ {p a q b}, R (p, a) (q, b) →
    R ((p.wait host a).1, (p.wait host a).2.1) ((q.wait other b).1, (q.wait other b).2.1)
  poll : ∀ {p a q b}, R (p, a) (q, b) →
    (host.poll a).1 = (other.poll b).1 ∧ R (p, (host.poll a).2) (q, (other.poll b).2)
  present : ∀ {p a q b}, R (p, a) (q, b) → ∀ picture,
    (host.present picture a).1 = (other.present picture b).1 ∧
      R (p, (host.present picture a).2) (q, (other.present picture b).2)
  play : ∀ {p a q b}, R (p, a) (q, b) → ∀ sound,
    (host.play sound a).1 = (other.play sound b).1 ∧
      R (p, (host.play sound a).2) (q, (other.play sound b).2)

theorem Host.Agrees.betweenPolls {σ τ : Type} {host : Host σ} {other : Host τ}
    {R : Pacer × σ → Pacer × τ → Prop} (h : host.Agrees other R) :
    host.AgreesBetweenPolls other R :=
  ⟨h.start, h.wait, h.present, h.play⟩

theorem Host.agrees_self {σ : Type} (host : Host σ) : host.Agrees host Eq where
  start h := by cases h; rfl
  wait h := by cases h; rfl
  poll h := by cases h; exact ⟨rfl, rfl⟩
  present h _ := by cases h; exact ⟨rfl, rfl⟩
  play h _ := by cases h; exact ⟨rfl, rfl⟩

/-- A host whose answers hang on a view of its state that time does not touch. -/
structure Host.Timeless {σ α : Type} (host : Host σ) (view : σ → α) : Prop where
  poll : ∀ {a b}, view a = view b →
    (host.poll a).1 = (host.poll b).1 ∧ view (host.poll a).2 = view (host.poll b).2
  present : ∀ {a b}, view a = view b → ∀ picture,
    (host.present picture a).1 = (host.present picture b).1 ∧
      view (host.present picture a).2 = view (host.present picture b).2
  play : ∀ {a b}, view a = view b → ∀ sound,
    (host.play sound a).1 = (host.play sound b).1 ∧
      view (host.play sound a).2 = view (host.play sound b).2
  now : ∀ a, view (host.now a).2 = view a
  sleep : ∀ span a, view (host.sleep span a) = view a

namespace Host.Timeless

variable {σ α : Type} {host : Host σ} {view : σ → α}

theorem wait (h : host.Timeless view) (p : Pacer) (a : σ) : view (p.wait host a).2.1 = view a := by
  show view (if (p.remaining (host.now a).1).2.1 = 0 then (host.now a).2 else _) = view a
  split
  · exact h.now a
  · exact (h.sleep _ _).trans (h.now a)

/-- Such a host agrees with itself whatever the pacer is and whatever the time. -/
theorem agrees (h : host.Timeless view) :
    host.Agrees host fun p q => view p.2 = view q.2 where
  start {_ a _ b} hview := (h.now a).trans (hview.trans (h.now b).symm)
  wait {p a q b} hview := (h.wait p a).trans (hview.trans (h.wait q b).symm)
  poll := h.poll
  present := h.present
  play := h.play

end Host.Timeless

namespace Session

variable {σ τ : Type}

/-! ### Operations in a row -/

/-- A use of a session by its owner. -/
inductive Operation where
  | frame (keys : Keypad)
  /-- A run that takes at most so many rounds. -/
  | run (rounds : Nat)

/-- The end of some operations: what happened, their account, how each came out, and the
session left behind. -/
structure Usage (σ : Type) where
  events : List Event
  account : Account
  results : List (Except (Stop Failure) Unit)
  session : Session σ

namespace Usage

/-- No operation. -/
def idle (s : Session σ) : Usage σ := ⟨[], .empty, [], s⟩

/-- The same usage after one operation more. -/
def after (u : Usage σ) (o : Outcome σ) (a : Account) : Usage σ :=
  ⟨o.events ++ u.events, a ++ u.account, o.result :: u.results, u.session⟩

theorem session_idle (s : Session σ) : (idle s).session = s := rfl

theorem account_idle (s : Session σ) : (idle s).account = .empty := rfl

theorem session_after (u : Usage σ) (o : Outcome σ) (a : Account) :
    (u.after o a).session = u.session := rfl

theorem account_after (u : Usage σ) (o : Outcome σ) (a : Account) :
    (u.after o a).account = a ++ u.account := rfl

end Usage

/-- Operations in a row, if each run among them ends within its rounds. -/
def use (host : Host σ) : List Operation → Session σ → Option (Usage σ)
  | [], s => some (.idle s)
  | .frame keys :: rest, s =>
    (use host rest (s.frame host keys).session).map
      (·.after (s.frame host keys) (s.frameAccount host keys))
  | .run rounds :: rest, s =>
    match s.run host rounds with
    | none => none
    | some o => (use host rest o.session).map (·.after o (s.runAccount host rounds))

/-- The session after so many rounds of a run, or where the run has ended before. -/
def during (host : Host σ) : Nat → Session σ → Session σ
  | 0, s => s
  | rounds + 1, s =>
    match s.round host with
    | .over o => o.session
    | .again next _ => during host rounds next

/-! ### Twins -/

/-- Standings that no frame can tell apart. -/
structure Kin (x y : Standing) : Prop where
  left : x.Live
  right : y.Live
  program : x.machine.SameProgram y.machine

/-- Sessions that came from the standings `x` and `y` with the account `a`: they stand alike,
or the machine has not set out on a frame and each stands as it did. -/
structure Twins (R : Pacer × σ → Pacer × τ → Prop) (x y : Standing) (a : Account) (s : Session σ)
    (t : Session τ) : Prop where
  host : R (s.pacer, s.host) (t.pacer, t.host)
  limit : s.limit = t.limit
  frames : s.frames = t.frames
  standing : s.standing = t.standing ∨ a.attempts = [] ∧ s.standing = x ∧ t.standing = y

section Twins
variable {host : Host σ} {other : Host τ} {R : Pacer × σ → Pacer × τ → Prop} {x y : Standing}
  {a : Account} {s : Session σ} {t : Session τ}

theorem Same.twins (h : Same R s t) : Twins R x y a s t :=
  ⟨h.host, h.limit, congrArg Standing.frames h.standing, .inl h.standing⟩

theorem Twins.limitReached (h : Twins R x y a s t) : t.limitReached = s.limitReached :=
  limitReached_congr h.limit h.frames

/-- Nothing but frames parts twins from where they came. -/
theorem Twins.move {s' : Session σ} {t' : Session τ} {b : Account} (h : Twins R x y a s t)
    (hhost : R (s'.pacer, s'.host) (t'.pacer, t'.host)) (hs : s'.standing = s.standing)
    (ht : t'.standing = t.standing) (hlimit : s'.limit = s.limit) (hlimit' : t'.limit = t.limit)
    (hb : b.attempts = []) : Twins R x y (a ++ b) s' t' where
  host := hhost
  limit := by rw [hlimit, hlimit', h.limit]
  frames := (congrArg Standing.frames hs).trans (h.frames.trans (congrArg Standing.frames ht).symm)
  standing := by
    rw [hs, ht, Account.attempts_append, hb, List.append_nil]
    exact h.standing

/-- Twins are ended by the same fault, or frames cannot tell them apart. -/
theorem Twins.live_or_same (hxy : Kin x y) (h : Twins R x y a s t) :
    (s.standing.Live ∧ t.standing.Live ∧ ∀ keys, t.machine.frame keys = s.machine.frame keys) ∨
      ∃ f, s.phase = .aborted f ∧ t.phase = .aborted f ∧ s.standing = t.standing := by
  rcases h.standing with hsame | ⟨-, rfl, rfl⟩
  · rcases s.standing.live_or_aborted with hs | ⟨f, hf⟩
    · have hmachine : s.machine = t.machine := congrArg Standing.machine hsame
      exact .inl ⟨hs, hsame ▸ hs, fun keys => by rw [hmachine]⟩
    · exact .inr ⟨f, hf, (congrArg Standing.phase hsame).symm.trans hf, hsame⟩
  · exact .inl ⟨hxy.left, hxy.right, Machine.frame_of_sameProgram hxy.program⟩

/-! ### One frame -/

/-- **Frames make twins the same**: both refuse, or both run the same frame. -/
theorem Twins.frame (hh : host.Agrees other R) (hxy : Kin x y) (h : Twins R x y a s t)
    (keys : Keypad) :
    (s.frameAccount host keys).exchanges = (t.frameAccount other keys).exchanges ∧
      SameEnd R (s.frame host keys) (t.frame other keys) := by
  rcases h.live_or_same hxy with ⟨hs, ht, hframe⟩ | ⟨f, hs, -, hstanding⟩
  · exact frame_same_of_live hh.betweenPolls h.host h.limit h.frames hs ht (hframe keys)
  · exact frame_same_of_aborted ⟨h.host, h.limit, hstanding⟩ hs

/-! ### One round -/

/-- Rounds that both end the loop alike or both leave it to go on. -/
inductive TwinRounds (R : Pacer × σ → Pacer × τ → Prop) (x y : Standing) (a : Account) :
    Round σ → Round τ → Prop where
  | last {o : Outcome σ} {p : Outcome τ} (hresult : o.result = p.result)
      (h : Twins R x y a o.session p.session) : TwinRounds R x y a (.over o) (.over p)
  | next {s : Session σ} {t : Session τ} {events events' : List Event} (h : Twins R x y a s t) :
      TwinRounds R x y a (.again s events) (.again t events')

theorem RoundsAlike.twins {q : Round σ} {q' : Round τ}
    (h : RoundsAlike (Twins R x y a) R q q') : TwinRounds R x y a q q' := by
  cases h with
  | last hresult h => exact .last hresult h
  | next h => exact .next h.twins

theorem Twins.round (hh : host.Agrees other R) (hxy : Kin x y) (h : Twins R x y a s t) :
    (s.roundAccount host).exchanges = (t.roundAccount other).exchanges ∧
      TwinRounds R x y (a ++ s.roundAccount host) (s.round host) (t.round other) := by
  obtain ⟨hanswer, hhost⟩ : s.polled host = t.polled other ∧
      R ((s.asked host).pacer, (s.asked host).host) ((t.asked other).pacer, (t.asked other).host) :=
    hh.poll (hh.start h.host)
  have hasked (b : Account) (hb : b.attempts = []) :
      Twins R x y (a ++ b) (s.asked host) (t.asked other) := h.move hhost rfl rfl rfl rfl hb
  have hreached (hl : s.limitReached = true) : Twins R x y (a ++ s.roundAccount host) s t := by
    rw [roundAccount, if_pos hl, Account.append_empty]
    exact h
  obtain ⟨hexchanges, hround⟩ := round_alike (E := Twins R x y (a ++ s.roundAccount host))
    hh.betweenPolls Same.twins h.limitReached hreached (fun _ => hanswer)
    (fun _ => hasked (s.roundAccount host))
    (fun _ keys _ => (hasked .empty rfl).frame hh hxy keys)
  exact ⟨hexchanges, hround.twins⟩

/-! ### Runs and operations -/

theorem rel_map {α β γ δ : Type} {P : α → β → Prop} {Q : γ → δ → Prop} {f : α → γ} {g : β → δ}
    {p : Option α} {q : Option β} (h : Option.Rel P p q) (hfg : ∀ {a b}, P a b → Q (f a) (g b)) :
    Option.Rel Q (p.map f) (q.map g) := by
  cases h with
  | none => exact .none
  | some h => exact .some (hfg h)

/-- Outcomes that come from twins. -/
structure TwinEnds (R : Pacer × σ → Pacer × τ → Prop) (x y : Standing) (a : Account)
    (o : Outcome σ) (p : Outcome τ) : Prop where
  result : o.result = p.result
  session : Twins R x y a o.session p.session

/-- So many rounds of twins: the same is said in them, they leave twins, and if they are enough
for one to come to an end then so they are for the other. -/
theorem Twins.rounds (hh : host.Agrees other R) (hxy : Kin x y) (h : Twins R x y a s t)
    (fuel : Nat) :
    (s.runAccount host fuel).exchanges = (t.runAccount other fuel).exchanges ∧
      Twins R x y (a ++ s.runAccount host fuel) (s.during host fuel) (t.during other fuel) ∧
      Option.Rel (TwinEnds R x y (a ++ s.runAccount host fuel)) (s.rounds host fuel)
        (t.rounds other fuel) := by
  induction fuel generalizing a s t with
  | zero => exact ⟨rfl, h.move h.host rfl rfl rfl rfl rfl, .none⟩
  | succ fuel ih =>
    obtain ⟨hsaid, hround⟩ := h.round hh hxy
    rw [Session.rounds, Session.rounds, during, during, runAccount, runAccount,
      Account.exchanges_append, Account.exchanges_append, hsaid, ← Account.append_assoc]
    generalize s.round host = q, t.round other = q' at hround ⊢
    cases hround with
    | last hresult hend =>
      rw [Account.append_empty]
      exact ⟨rfl, hend, .some ⟨hresult, hend⟩⟩
    | next hnext =>
      obtain ⟨hrest, htwins, hends⟩ := ih hnext
      exact ⟨congrArg _ hrest, htwins, rel_map hends fun h => ⟨h.result, h.session⟩⟩

/-- Uses of twins that their hosts and their owners see alike. -/
structure TwinUsages (R : Pacer × σ → Pacer × τ → Prop) (x y : Standing) (a : Account)
    (u : Usage σ) (v : Usage τ) : Prop where
  calls : calls u.events = calls v.events
  said : u.account.exchanges = v.account.exchanges
  results : u.results = v.results
  session : Twins R x y (a ++ u.account) u.session v.session

theorem TwinUsages.after {o : Outcome σ} {p : Outcome τ} {b c : Account} {u : Usage σ}
    {v : Usage τ} (h : TwinUsages R x y (a ++ b) u v)
    (hb : ByteByteJump.calls o.events = b.exchanges.map Exchange.call)
    (hc : ByteByteJump.calls p.events = c.exchanges.map Exchange.call)
    (hsaid : b.exchanges = c.exchanges) (hresult : o.result = p.result) :
    TwinUsages R x y a (u.after o b) (v.after p c) where
  calls := by simp only [Usage.after, calls_append, hb, hc, hsaid, h.calls]
  said := by simp only [Usage.after, Account.exchanges_append, hsaid, h.said]
  results := by simp only [Usage.after, hresult, h.results]
  session := by
    simp only [Usage.after, ← Account.append_assoc]
    exact h.session

theorem Twins.use (hh : host.Agrees other R) (hxy : Kin x y) (h : Twins R x y a s t)
    (ops : List Operation) :
    Option.Rel (TwinUsages R x y a) (s.use host ops) (t.use other ops) := by
  induction ops generalizing a s t with
  | nil => exact .some ⟨rfl, rfl, rfl, h.move h.host rfl rfl rfl rfl rfl⟩
  | cons op ops ih =>
    cases op with
    | frame keys =>
      obtain ⟨hsaid, hend⟩ := h.frame hh hxy keys
      have hnext : Twins R x y (a ++ s.frameAccount host keys) _ _ := hend.session.twins
      exact rel_map (ih hnext) fun hu =>
        hu.after (frame_takes host keys s).calls (frame_takes other keys t).calls hsaid hend.result
    | run rounds =>
      obtain ⟨hsaid, -, hends⟩ := h.rounds hh hxy rounds
      have hruns : Option.Rel (TwinEnds R x y (a ++ s.runAccount host rounds))
          (s.run host rounds) (t.run other rounds) :=
        rel_map hends fun h => ⟨h.result, h.session⟩
      rw [Session.use, Session.use]
      cases hs : s.run host rounds with
      | none =>
        cases ht : t.run other rounds with
        | none => exact .none
        | some p =>
          rw [hs, ht] at hruns
          cases hruns
      | some o =>
        cases ht : t.run other rounds with
        | none =>
          rw [hs, ht] at hruns
          cases hruns
        | some p =>
          rw [hs, ht] at hruns
          obtain ⟨hresult, hnext⟩ := Option.rel_some_some.1 hruns
          exact rel_map (ih hnext) fun hu =>
            hu.after (run_takes hs).calls (run_takes ht).calls hsaid hresult

/-- Uses after which nothing has told the sessions apart, and no round of a run will. -/
structure Indistinct (host : Host σ) (other : Host τ) (R : Pacer × σ → Pacer × τ → Prop)
    (x y : Standing) (u : Usage σ) (v : Usage τ) : Prop where
  calls : calls u.events = calls v.events
  said : u.account.exchanges = v.account.exchanges
  results : u.results = v.results
  session : Twins R x y u.account u.session v.session
  ahead : ∀ rounds,
    (u.session.runAccount host rounds).exchanges = (v.session.runAccount other rounds).exchanges ∧
      Twins R x y (u.account ++ u.session.runAccount host rounds) (u.session.during host rounds)
        (v.session.during other rounds)

theorem TwinUsages.indistinct {u : Usage σ} {v : Usage τ} (hh : host.Agrees other R)
    (hxy : Kin x y) (h : TwinUsages R x y .empty u v) : Indistinct host other R x y u v where
  calls := h.calls
  said := h.said
  results := h.results
  session := h.session
  ahead rounds := by
    obtain ⟨hsaid, hduring, -⟩ := h.session.rounds hh hxy rounds
    exact ⟨hsaid, hduring⟩

/-- **The program alone is carried from frame to frame.** A frame comes out the same and leaves
the same machine whatever was in the first two bytes, in the program counter and in the
count. So two sessions with the same program, frames and limit, neither of them
aborted, cannot be told apart in front of hosts that answer alike, as every host does
itself: they say the same to their hosts, in ended runs and in those that go on, they come
out the same, and once a frame is set out on they stand alike. -/
theorem only_program_carries_over (hh : host.Agrees other R) (hs : s.standing.Live)
    (ht : t.standing.Live) (hprogram : s.machine.SameProgram t.machine)
    (hframes : s.frames = t.frames) (hlimit : s.limit = t.limit)
    (hhost : R (s.pacer, s.host) (t.pacer, t.host)) :
    (∀ m n : Machine, m.SameProgram n → ∀ keys, n.frame keys = m.frame keys) ∧
      (∀ h : Host σ, h.Agrees h Eq) ∧
      ∀ ops, Option.Rel (Indistinct host other R s.standing t.standing) (s.use host ops)
        (t.use other ops) := by
  refine ⟨fun m n h => Machine.frame_of_sameProgram h, Host.agrees_self, fun ops => ?_⟩
  have hkin : Kin s.standing t.standing := ⟨hs, ht, hprogram⟩
  have hbegin : Twins R s.standing t.standing .empty s t :=
    ⟨hhost, hlimit, hframes, .inr ⟨rfl, rfl, rfl⟩⟩
  have huse := rel_map (f := id) (g := id) (hbegin.use hh hkin ops) fun h => h.indistinct hh hkin
  rwa [Option.map_id_fun, Option.map_id_fun] at huse

end Twins

/-! ### A script's answers -/

/-- What a script is still to answer, whatever its clock shows. -/
def pending (s : Script) : List (Except Failure Input) × List (Option Failure) × List (Option Failure) :=
  (s.polls, s.presents, s.plays)

theorem script_timeless : Script.host.Timeless pending where
  poll {a b} h := by
    obtain ⟨polls, presents, plays, delay, clock⟩ := a
    obtain ⟨_, _, _, delay', clock'⟩ := b
    cases h
    cases polls with
    | nil => exact ⟨rfl, rfl⟩
    | cons answer polls => exact ⟨rfl, rfl⟩
  present {a b} h _ := by
    obtain ⟨polls, presents, plays, delay, clock⟩ := a
    obtain ⟨_, _, _, delay', clock'⟩ := b
    cases h
    exact ⟨rfl, rfl⟩
  play {a b} h _ := by
    obtain ⟨polls, presents, plays, delay, clock⟩ := a
    obtain ⟨_, _, _, delay', clock'⟩ := b
    cases h
    exact ⟨rfl, rfl⟩
  now _ := rfl
  sleep _ _ := rfl

/-- A machine with nothing run yet, in front of a host that polls once. -/
def fresh (m : Machine) : Session Script :=
  new m ⟨[.ok ⟨true, .released⟩], [], [], 0, 0⟩ (.new .unlimited 0) none

/-- The same program in the middle of a frame with all keys down, with another pacing and
a slow host. -/
def midway (m : Machine) : Session Script :=
  new { m.start ⟨Vector.replicate 16 true⟩ with pc := 9, executed := 7 }
    ⟨[.ok ⟨true, .released⟩], [], [], 250, 1000⟩ (.new .exact 3) none

theorem sameProgram_midway {m : Machine} (h : m.Full) :
    (fresh m).machine.SameProgram (midway m).machine where
  five_le := h.five_le
  size := Machine.size_start
  cells _ := Machine.cell?_start_of_two_le (Nat.le_trans (by decide) h.five_le)

/-- One frame leaves both on the same machine. -/
theorem midway_meets_fresh :
    (fresh .blank).standing.Live ∧ (midway .blank).standing.Live ∧
      (fresh .blank).machine.SameProgram (midway .blank).machine ∧
      pending (fresh .blank).host = pending (midway .blank).host ∧
      ((midway .blank).frame Script.host .released).session.standing =
        ((fresh .blank).frame Script.host .released).session.standing := by
  have hfull : Machine.blank.Full := Memory.size_blank _
  -- Nothing else of the blank machine matters.
  generalize Machine.blank = m at hfull ⊢
  have hfresh : (fresh m).standing.Live := nofun
  have hmidway : (midway m).standing.Live := nofun
  have hprogram := sameProgram_midway hfull
  refine ⟨hfresh, hmidway, hprogram, rfl, ?_⟩
  have huse := (only_program_carries_over script_timeless.agrees hfresh hmidway hprogram rfl rfl
    rfl).2.2 [.frame .released]
  rw [use, use, use, use, Option.map_some, Option.map_some, Option.rel_some_some] at huse
  have hstanding := huse.session.standing
  rw [Usage.session_after, Usage.session_after, Usage.account_after, Usage.session_idle,
    Usage.session_idle, Usage.account_idle, Account.append_empty,
    frameAccount_of_live hfresh] at hstanding
  rcases hstanding with hsame | ⟨hnone, -⟩
  · exact hsame.symm
  · exact absurd hnone (List.cons_ne_nil _ _)

end Session

end ByteByteJump
