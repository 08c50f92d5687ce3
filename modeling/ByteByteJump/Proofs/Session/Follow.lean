import Mathlib.Data.Stream.Init
import ByteByteJump.Proofs.Session.Continued
import ByteByteJump.Proofs.Session.Limit
import ByteByteJump.Proofs.Session.Twin

/-! Hosts that follow a script.

A host follows a script if its answers come from there, each kind in its order, whatever
the time (`Host.Follows`). Where one script has a stop that another has not, two runs are
alike up to the stop, and a run that goes on after the stop is alike to the one that was
not stopped (`stop_unseen`). -/
namespace ByteByteJump

/-! ### Scripts without an end -/

/-- What a host is still to answer: to polls, and to each kind of output. -/
structure Answers where
  polls : Stream' (Except Failure Input)
  presents : Stream' (Except Failure Unit)
  plays : Stream' (Except Failure Unit)

/-- A host whose answers come from a script, each kind in its order, whatever the time. -/
structure Host.Follows {σ : Type} (host : Host σ) (script : σ → Answers) : Prop where
  poll : ∀ a, (host.poll a).1 = (script a).polls.head ∧
    script (host.poll a).2 = { script a with polls := (script a).polls.tail }
  present : ∀ picture a, (host.present picture a).1 = (script a).presents.head ∧
    script (host.present picture a).2 = { script a with presents := (script a).presents.tail }
  play : ∀ sound a, (host.play sound a).1 = (script a).plays.head ∧
    script (host.play sound a).2 = { script a with plays := (script a).plays.tail }
  now : ∀ a, script (host.now a).2 = script a
  sleep : ∀ span a, script (host.sleep span a) = script a

theorem Host.Follows.timeless {σ : Type} {host : Host σ} {script : σ → Answers}
    (h : host.Follows script) : host.Timeless script where
  poll {a b} hab := by
    rw [(h.poll a).1, (h.poll b).1, (h.poll a).2, (h.poll b).2, hab]
    exact ⟨rfl, rfl⟩
  present {a b} hab picture := by
    rw [(h.present picture a).1, (h.present picture b).1, (h.present picture a).2,
      (h.present picture b).2, hab]
    exact ⟨rfl, rfl⟩
  play {a b} hab sound := by
    rw [(h.play sound a).1, (h.play sound b).1, (h.play sound a).2, (h.play sound b).2, hab]
    exact ⟨rfl, rfl⟩
  now := h.now
  sleep := h.sleep

/-- The answers of a script that says to stop, and takes every output, where it has run out. -/
def Script.answers (s : Script) : Answers where
  polls n := s.polls.getD n (.ok stop)
  presents n := verdict (s.presents.drop n)
  plays n := verdict (s.plays.drop n)

theorem Script.host_follows : Script.host.Follows Script.answers where
  poll a := by
    obtain ⟨polls, presents, plays, delay, clock⟩ := a
    cases polls with
    | nil => exact ⟨rfl, rfl⟩
    | cons answer polls => exact ⟨rfl, rfl⟩
  present _ a := by
    have hrest : (fun n => verdict (a.presents.tail.drop n)) =
        fun n => verdict (a.presents.drop (n + 1)) := by
      funext n
      rw [List.drop_tail]
    exact ⟨rfl, congrArg (fun presents => { a.answers with presents }) hrest⟩
  play _ a := by
    have hrest : (fun n => verdict (a.plays.tail.drop n)) =
        fun n => verdict (a.plays.drop (n + 1)) := by
      funext n
      rw [List.drop_tail]
    exact ⟨rfl, congrArg (fun plays => { a.answers with plays }) hrest⟩
  now _ := rfl
  sleep _ _ := rfl

namespace Session

variable {σ τ : Type}

/-! ### Hosts that agree -/

section Agreeing
variable {host : Host σ} {other : Host τ} {R : Pacer × σ → Pacer × τ → Prop} {s : Session σ}
  {t : Session τ}

theorem Same.round (hh : host.Agrees other R) (h : Same R s t) :
    (s.roundAccount host).exchanges = (t.roundAccount other).exchanges ∧
      RoundsAlike (Same R) R (s.round host) (t.round other) := by
  obtain ⟨hanswer, hhost⟩ : s.polled host = t.polled other ∧
      R ((s.asked host).pacer, (s.asked host).host) ((t.asked other).pacer, (t.asked other).host) :=
    hh.poll (hh.start h.host)
  have hasked : Same R (s.asked host) (t.asked other) := ⟨hhost, h.limit, h.standing⟩
  have hframes : s.frames = t.frames := congrArg Standing.frames h.standing
  exact round_alike hh.betweenPolls id (limitReached_congr h.limit hframes) (fun _ => h)
    (fun _ => hanswer) (fun _ _ => hasked) (fun _ keys _ => hasked.frame hh.betweenPolls keys)

theorem Same.rounds (hh : host.Agrees other R) (h : Same R s t) (fuel : Nat) :
    (s.runAccount host fuel).exchanges = (t.runAccount other fuel).exchanges ∧
      Option.Rel (SameEnd R) (s.rounds host fuel) (t.rounds other fuel) := by
  induction fuel generalizing s t with
  | zero => exact ⟨rfl, .none⟩
  | succ fuel ih =>
    obtain ⟨hsaid, hround⟩ := h.round hh
    rw [Session.rounds, Session.rounds, runAccount, runAccount, Account.exchanges_append,
      Account.exchanges_append, hsaid]
    generalize s.round host = q, t.round other = q' at hround ⊢
    cases hround with
    | last hresult hend => exact ⟨rfl, .some ⟨hresult, hend⟩⟩
    | next hnext =>
      obtain ⟨hrest, hends⟩ := ih hnext
      exact ⟨congrArg _ hrest, rel_map hends fun h => ⟨h.result, h.session⟩⟩

/-- Sessions that stand alike in front of hosts that agree run alike. -/
theorem Same.runs (hh : host.Agrees other R) (h : Same R s t) :
    Matched (fun a o b p => a.exchanges = b.exchanges ∧ SameEnd R o p) (s.Runs host)
      (t.Runs other) := by
  have hrun (fuel : Nat) : Option.Rel (SameEnd R) (s.run host fuel) (t.run other fuel) :=
    rel_map (h.rounds hh fuel).2 fun h => ⟨h.result, h.session⟩
  constructor
  · rintro a o ⟨fuel, ho, rfl⟩
    have hends := hrun fuel
    rw [ho] at hends
    generalize hp : t.run other fuel = q at hends
    cases hends with
    | some hend => exact ⟨_, _, ⟨fuel, hp, rfl⟩, (h.rounds hh fuel).1, hend⟩
  · rintro b p ⟨fuel, hp, rfl⟩
    have hends := hrun fuel
    rw [hp] at hends
    generalize ho : s.run host fuel = q at hends
    cases hends with
    | some hend => exact ⟨_, _, ⟨fuel, ho, rfl⟩, (h.rounds hh fuel).1, hend⟩

end Agreeing

/-! ### Up to the stop -/

open scoped Stream'

section Parting
variable {host : Host σ} {other : Host τ} {script : σ → Answers} {script' : τ → Answers}
  {P Q : Stream' (Except Failure Input)} {s : Session σ} {t : Session τ}

/-- Scripts that have the same in store, polls apart. -/
def Apart (script : σ → Answers) (script' : τ → Answers) (P Q : Stream' (Except Failure Input))
    (x : Pacer × σ) (y : Pacer × τ) : Prop :=
  ∃ presents plays, script x.2 = ⟨P, presents, plays⟩ ∧ script' y.2 = ⟨Q, presents, plays⟩

theorem apart_betweenPolls (hhost : host.Follows script) (hother : other.Follows script') :
    host.AgreesBetweenPolls other (Apart script script' P Q) where
  start {_ a _ b} := by
    rintro ⟨presents, plays, ha, hb⟩
    exact ⟨presents, plays, (hhost.now a).trans ha, (hother.now b).trans hb⟩
  wait {p a q b} := by
    rintro ⟨presents, plays, ha, hb⟩
    exact ⟨presents, plays, (hhost.timeless.wait p a).trans ha,
      (hother.timeless.wait q b).trans hb⟩
  present {_ a _ b} := by
    rintro ⟨presents, plays, ha, hb⟩ picture
    simp only at ha hb
    obtain ⟨hanswer, hrest⟩ := hhost.present picture a
    obtain ⟨hanswer', hrest'⟩ := hother.present picture b
    rw [ha] at hanswer hrest
    rw [hb] at hanswer' hrest'
    exact ⟨hanswer.trans hanswer'.symm, presents.tail, plays, hrest, hrest'⟩
  play {_ a _ b} := by
    rintro ⟨presents, plays, ha, hb⟩ sound
    simp only at ha hb
    obtain ⟨hanswer, hrest⟩ := hhost.play sound a
    obtain ⟨hanswer', hrest'⟩ := hother.play sound b
    rw [ha] at hanswer hrest
    rw [hb] at hanswer' hrest'
    exact ⟨hanswer.trans hanswer'.symm, presents, plays.tail, hrest, hrest'⟩

/-- Scripts that have the same in store, polls included. -/
def InStep (script : σ → Answers) (script' : τ → Answers) (x : Pacer × σ) (y : Pacer × τ) : Prop :=
  ∃ P, Apart script script' P P x y

theorem inStep_agree (hhost : host.Follows script) (hother : other.Follows script') :
    host.Agrees other (InStep script script') where
  start := fun ⟨P, h⟩ => ⟨P, (apart_betweenPolls hhost hother).start h⟩
  wait := fun ⟨P, h⟩ => ⟨P, (apart_betweenPolls hhost hother).wait h⟩
  poll {_ a _ b} := by
    rintro ⟨P, presents, plays, ha, hb⟩
    simp only at ha hb
    obtain ⟨hanswer, hrest⟩ := hhost.poll a
    obtain ⟨hanswer', hrest'⟩ := hother.poll b
    rw [ha] at hanswer hrest
    rw [hb] at hanswer' hrest'
    exact ⟨hanswer.trans hanswer'.symm, P.tail, presents, plays, hrest, hrest'⟩
  present := fun ⟨P, h⟩ picture =>
    ⟨((apart_betweenPolls hhost hother).present h picture).1, P,
      ((apart_betweenPolls hhost hother).present h picture).2⟩
  play := fun ⟨P, h⟩ sound =>
    ⟨((apart_betweenPolls hhost hother).play h sound).1, P,
      ((apart_betweenPolls hhost hother).play h sound).2⟩

/-- What a script answers to the poll of a round. -/
theorem answers_asked (hhost : host.Follows script) (s : Session σ) :
    s.polled host = (script s.host).polls.head ∧
      script (s.asked host).host = { script s.host with polls := (script s.host).polls.tail } := by
  have hstart : script (s.startPeriod host).host = script s.host := hhost.now s.host
  have hpoll := hhost.poll (s.startPeriod host).host
  rw [hstart] at hpoll
  exact hpoll

theorem Apart.polled (hhost : host.Follows script) (hother : other.Follows script')
    (h : Same (Apart script script' P Q) s t) :
    s.polled host = P.head ∧ t.polled other = Q.head ∧
      Same (Apart script script' P.tail Q.tail) (s.asked host) (t.asked other) := by
  obtain ⟨⟨presents, plays, hs, ht⟩, hlimit, hstanding⟩ := h
  obtain ⟨hpolled, hasked⟩ := answers_asked hhost s
  obtain ⟨hpolled', hasked'⟩ := answers_asked hother t
  simp only at hs ht
  rw [hs] at hpolled hasked
  rw [ht] at hpolled' hasked'
  exact ⟨hpolled, hpolled', ⟨presents, plays, hasked, hasked'⟩, hlimit, hstanding⟩

/-- A round whose poll both scripts answer with the same input. -/
theorem Same.round_apart (hhost : host.Follows script) (hother : other.Follows script')
    {answer : Except Failure Input}
    (h : Same (Apart script script' (answer :: P) (answer :: Q)) s t) :
    (s.roundAccount host).exchanges = (t.roundAccount other).exchanges ∧
      RoundsAlike (fun u v => u.standing = v.standing) (Apart script script' P Q) (s.round host)
        (t.round other) := by
  obtain ⟨hpolled, hpolled', hasked⟩ := Apart.polled hhost hother h
  have hframes : s.frames = t.frames := congrArg Standing.frames h.standing
  exact round_alike (apart_betweenPolls hhost hother) Same.standing
    (limitReached_congr h.limit hframes) (fun _ => h.standing)
    (fun _ => hpolled.trans hpolled'.symm) (fun _ _ => hasked.standing)
    (fun _ keys _ => hasked.frame (apart_betweenPolls hhost hother) keys)

/-- The rounds that answer with inputs that both scripts begin with. Either both loops end in
one of them, and not because of a stop, or both go on to what the scripts differ in. -/
theorem Same.rounds_apart (hhost : host.Follows script) (hother : other.Follows script')
    {inputs : List Input} (hinputs : ∀ input ∈ inputs, input.running = true)
    (h : Same (Apart script script' (inputs.map .ok ++ₛ P) (inputs.map .ok ++ₛ Q)) s t) :
    (∃ a o b p, Loops host s a o ∧ Loops other t b p ∧ a.exchanges = b.exchanges ∧ ¬ a.Stopped ∧
      o.session.standing = p.session.standing ∧ o.result = p.result) ∨
    ∃ a es u b es' v, Leads host s a es u ∧ Leads other t b es' v ∧ a.exchanges = b.exchanges ∧
      Same (Apart script script' P Q) u v := by
  induction inputs generalizing s t with
  | nil => exact .inr ⟨_, _, s, _, _, t, .refl, .refl, rfl, h⟩
  | cons input inputs ih =>
    rw [List.map_cons, Stream'.cons_append_stream, Stream'.cons_append_stream] at h
    obtain ⟨hsaid, hround⟩ := h.round_apart hhost hother
    generalize hs : s.round host = q, ht : t.round other = q' at hround
    cases hround with
    | @last o p hresult hstanding =>
      refine .inl ⟨_, o, _, p, .last hs, .last ht, hsaid, ?_, hstanding, hresult⟩
      -- The round did not poll, or it was told to go on.
      rintro ⟨stopping, hlast, hstopping⟩
      cases hl : s.limitReached with
      | true =>
        rw [roundAccount, if_pos hl] at hlast
        cases hlast
      | false =>
        rw [polls_roundAccount hl, (Apart.polled hhost hother h).1] at hlast
        cases hlast
        rw [hinputs input (.head _)] at hstopping
        cases hstopping
    | next hnext =>
      have hrest (i : Input) (hi : i ∈ inputs) : i.running = true := hinputs i (.tail _ hi)
      rcases ih hrest hnext with ⟨a, o, b, p, ho, hp, hsame, hstopped, hend⟩ |
        ⟨a, es, u, b, es', v, hu, hv, hsame, huv⟩
      · refine .inl ⟨_, _, _, _, .next hs ho, .next ht hp, ?_, ?_, hend⟩
        · rw [Account.exchanges_append, Account.exchanges_append, hsaid, hsame]
        · have hfirst := (Leads.round hs .refl).not_stopped
          rw [Account.append_empty] at hfirst
          rw [Account.stopped_append]
          exact fun hcases => hcases.elim hstopped fun hfirst' => hfirst hfirst'.2
      · refine .inr ⟨_, _, u, _, _, v, .round hs hu, .round ht hv, ?_, huv⟩
        rw [Account.exchanges_append, Account.exchanges_append, hsaid, hsame]

theorem SameToProgram.of_runs {a b : Account} {o : Outcome σ} {p : Outcome τ}
    (ho : s.Runs host a o) (hp : t.Runs other b p) (hsaid : a.exchanges = b.exchanges)
    (hstanding : o.session.standing = p.session.standing) (hresult : o.result = p.result) :
    SameToProgram a o b p :=
  .of_accounts ho.takes.calls hp.takes.calls (Account.outputs_congr hsaid) hstanding hresult

/-- What was shown up to a session is what leads to `v`, and another run goes on from where the
scripts are in step with `v`. -/
theorem matched_of_leads (hhost : host.Follows script) (hother : other.Follows script')
    {a b : Account} {o : Outcome σ} {es : List Event} {w : Session σ} {v : Session τ}
    (ho : calls o.events = a.exchanges.map Exchange.call) (hv : Leads other t b es v)
    (hsaid : a.outputs = b.outputs) (hw : Same (InStep script script') w v) :
    Matched SameToProgram (Continued host a o w) (t.Runs other) := by
  have hruns := hw.runs (inStep_agree hhost hother)
  have hsame {d b' : Account} {q : Outcome σ} {p p' : Outcome τ} (hq : w.Runs host d q)
      (hp : t.Runs other (b ++ b') p) (hrest : d.exchanges = b'.exchanges)
      (hend : SameEnd (InStep script script') q p')
      (hsession : p'.session = p.session) (hresult : p'.result = p.result) :
      SameToProgram (a ++ d) (q.after o.events) (b ++ b') p := by
    apply SameToProgram.of_accounts
    · exact Continued.calls ho ⟨d, q, hq, rfl, rfl⟩
    · exact hp.takes.calls
    · rw [Account.outputs_append, Account.outputs_append, hsaid, Account.outputs_congr hrest]
    · exact hend.session.standing.trans (congrArg standing hsession)
    · exact hend.result.trans hresult
  constructor
  · rintro c r ⟨d, q, hq, rfl, rfl⟩
    obtain ⟨b', p', hp', hrest, hend⟩ := hruns.left hq
    obtain ⟨p, hp, hsession, hresult⟩ := hv.runs hp'
    exact ⟨_, p, hp, hsame hq hp hrest hend hsession.symm hresult.symm⟩
  · intro c p hp
    obtain ⟨b', p', hp', rfl, hsession, hresult⟩ := hv.exists_runs hp
    obtain ⟨d, q, hq, hrest, hend⟩ := hruns.right hp'
    exact ⟨_, _, ⟨d, q, hq, rfl, rfl⟩, hsame hq hp hrest hend hsession hresult⟩

/-- A stop that one script has and the other has not. Either it does not stop the run, which
is then the same as the other, or the run is over and another one after it shows what the
other run shows. -/
theorem stop_unseen (hhost : host.Follows script) (hother : other.Follows script')
    {inputs : List Input} {stop : Input} (hinputs : ∀ input ∈ inputs, input.running = true)
    (hstop : stop.running = false)
    (h : Same (Apart script script' (inputs.map .ok ++ₛ (.ok stop :: Q)) (inputs.map .ok ++ₛ Q))
      s t) :
    ∃ a o, s.Runs host a o ∧
      (¬ a.Stopped → ∃ b p, t.Runs other b p ∧ SameToProgram a o b p) ∧
      (a.Stopped → o.result = .ok () ∧
        Matched SameToProgram (Continued host a o o.session) (t.Runs other)) := by
  rcases h.rounds_apart hhost hother hinputs with
    ⟨a, last, b, last', hlast, hlast', hsaid, hstopped, hstanding, hresult⟩ |
    ⟨a, es, u, b, es', v, hu, hv, hsaid, huv⟩
  · have ho : s.Runs host a _ := runs_iff_loops.2 ⟨last, hlast, rfl⟩
    have hp : t.Runs other b _ := runs_iff_loops.2 ⟨last', hlast', rfl⟩
    exact ⟨a, _, ho, fun _ => ⟨b, _, hp, .of_runs ho hp hsaid hstanding hresult⟩,
      fun h => absurd h hstopped⟩
  · cases hl : u.limitReached with
    | true =>
      have hframes : u.frames = v.frames := congrArg Standing.frames huv.standing
      have hl' : v.limitReached = true := (limitReached_congr huv.limit hframes).trans hl
      have ho : s.Runs host _ _ :=
        runs_iff_loops.2 ⟨_, hu.loops_iff.2 ⟨_, _, loops_of_limitReached hl, rfl, rfl⟩, rfl⟩
      have hp : t.Runs other _ _ :=
        runs_iff_loops.2 ⟨_, hv.loops_iff.2 ⟨_, _, loops_of_limitReached hl', rfl, rfl⟩, rfl⟩
      rw [Account.append_empty] at ho hp
      exact ⟨a, _, ho, fun _ => ⟨b, _, hp, .of_runs ho hp hsaid huv.standing rfl⟩,
        fun h => absurd h hu.not_stopped⟩
    | false =>
      have hpolled := (Apart.polled hhost hother huv).1
      have ho : s.Runs host _ _ := runs_iff_loops.2
        ⟨_, hu.loops_iff.2 ⟨_, _, loops_of_stop hl hpolled hstop, rfl, rfl⟩, rfl⟩
      -- What the stop left of the one script is what the other script had in store.
      have hw : Same (InStep script script') (u.asked host) v := by
        obtain ⟨⟨presents, plays, hu', hv'⟩, hlimit, hstanding⟩ := huv
        have hrest := (answers_asked hhost u).2
        simp only at hu' hv'
        rw [hu'] at hrest
        exact ⟨⟨Q, presents, plays, hrest, hv'⟩, hlimit, hstanding⟩
      refine ⟨_, _, ho, fun h => ?_, fun _ => ⟨rfl, ?_⟩⟩
      · exact absurd (Account.stopped_append.2 (.inl ⟨stop, rfl, hstop⟩)) h
      · apply matched_of_leads hhost hother ho.takes.calls hv _ hw
        rw [Account.outputs_append, Account.outputs_congr hsaid]
        exact List.append_nil _

end Parting

end Session

end ByteByteJump
