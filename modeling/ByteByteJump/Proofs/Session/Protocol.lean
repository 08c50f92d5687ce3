import ByteByteJump.Host.Script
import ByteByteJump.Proofs.Machine.Waiting
import ByteByteJump.Proofs.Session.Safety

/-! What a run says to its host.

A run polls, shows a picture and plays a sound, again and again, until one of
these is the last: `Tail` lists the ways it ends. The pictures and the sounds are
those of the machine's own frames, one after the other, with the keys that were
polled (`Played`). `run_keeps_protocol` says so of every run that does not reach
beyond the memory, and that the time a host takes is not seen in it: hosts that
answer alike are asked alike. -/
namespace ByteByteJump

/-- A frame whose picture and sound were taken. -/
structure Shown where
  keys : Keypad
  picture : ByteArray
  sound : ByteArray

def Shown.exchanges (x : Shown) : List Exchange :=
  [.poll (.ok ⟨true, x.keys⟩), .present x.picture (.ok ()), .play x.sound (.ok ())]

/-- The machine's frames with the keys of each, its picture and its sound. -/
inductive Played : Machine → List Shown → Machine → Prop where
  | nil {m : Machine} : Played m [] m
  | cons {m n last : Machine} {keys : Keypad} {picture sound : ByteArray} {shown : List Shown}
      (hm : m.frame keys = (n, .ok ())) (hp : n.IsPicture picture) (ha : n.IsSound sound)
      (h : Played n shown last) : Played m (⟨keys, picture, sound⟩ :: shown) last

/-- How a run ends at a machine, with so many frames complete: its last exchanges, the
machine it leaves and its result. -/
inductive Tail (limit : Option Nat) (m : Machine) (frames : Nat) :
    List Exchange → Machine → Except (Stop Failure) Unit → Prop where
  | limit (h : Reached limit frames) : Tail limit m frames [] m (.ok ())
  | pollFailed {e : Failure} (h : ¬ Reached limit frames) :
      Tail limit m frames [.poll (.error e)] m (.error (.failed e))
  | stopped {input : Input} (h : ¬ Reached limit frames) (hi : input.running = false) :
      Tail limit m frames [.poll (.ok input)] m (.ok ())
  | faulted {keys : Keypad} {n : Machine} {f : Fault} (h : ¬ Reached limit frames)
      (hm : m.frame keys = (n, .error (.failed f))) :
      Tail limit m frames [.poll (.ok ⟨true, keys⟩)] n (.error (.failed (.fault f)))
  | presentFailed {keys : Keypad} {n : Machine} {picture : ByteArray} {e : Failure}
      (h : ¬ Reached limit frames) (hm : m.frame keys = (n, .ok ())) (hp : n.IsPicture picture) :
      Tail limit m frames [.poll (.ok ⟨true, keys⟩), .present picture (.error e)] n
        (.error (.failed e))
  | playFailed {keys : Keypad} {n : Machine} {picture sound : ByteArray} {e : Failure}
      (h : ¬ Reached limit frames) (hm : m.frame keys = (n, .ok ())) (hp : n.IsPicture picture)
      (ha : n.IsSound sound) :
      Tail limit m frames
        [.poll (.ok ⟨true, keys⟩), .present picture (.ok ()), .play sound (.error e)] n
        (.error (.failed e))

/-- Whole frames below the limit and then a tail. -/
structure Protocol (limit : Option Nat) (x y : Standing) (exchanges : List Exchange)
    (r : Except (Stop Failure) Unit) (shown : List Shown) (tail : List Exchange) : Prop where
  exchanges : exchanges = shown.flatMap Shown.exchanges ++ tail
  frames : y.frames = x.frames + shown.length
  below : ∀ i < shown.length, ¬ Reached limit (x.frames + i)
  ending : ∃ m, Played x.machine shown m ∧ Tail limit m (x.frames + shown.length) tail y.machine r

/-! ### Courses keep the protocol -/

section Courses
variable {limit : Option Nat} {x y : Standing} {a : Account} {ns : List Notice}

theorem Input.eq_of_running {input : Input} (h : input.running = true) :
    input = ⟨true, input.keys⟩ := by
  obtain ⟨running, keys⟩ := input
  cases h
  rfl

/-- The last round of a run leaves a tail. -/
theorem RoundCourse.tail {r : Except (Stop Failure) Unit}
    (h : RoundCourse limit x a ns y (some r)) (hx : x.Live) (hr : r ≠ .error .outOfRange) :
    Tail limit x.machine x.frames a.exchanges y.machine r ∧ y.frames = x.frames := by
  cases h with
  | limit h => exact ⟨.limit h, rfl⟩
  | pollFailed h => exact ⟨.pollFailed h, rfl⟩
  | stopped h hi => exact ⟨.stopped h hi, rfl⟩
  | cut h hi hf =>
    rw [Input.eq_of_running hi]
    cases hf with
    | refused hf => exact absurd hf (hx _)
    | stuck => exact absurd rfl hr
    | faulted _ hm => exact ⟨.faulted h hm, rfl⟩
    | delivered _ hm hd =>
      cases hd with
      | unshown => exact absurd rfl hr
      | presentFailed hp =>
        exact ⟨.presentFailed h hm ((Machine.picture?_eq_some_iff ..).1 hp), rfl⟩
      | unheard => exact absurd rfl hr
      | playFailed hp ha =>
        exact ⟨.playFailed h hm ((Machine.picture?_eq_some_iff ..).1 hp)
          ((Machine.sound?_eq_some_iff ..).1 ha), rfl⟩

/-- A round after which the loop goes on has shown a frame. -/
theorem RoundCourse.shown (h : RoundCourse limit x a ns y none) :
    ¬ Reached limit x.frames ∧ y.Live ∧ y.frames = x.frames + 1 ∧
      ∃ keys picture sound, a.exchanges = Shown.exchanges ⟨keys, picture, sound⟩ ∧
        x.machine.frame keys = (y.machine, .ok ()) ∧ y.machine.IsPicture picture ∧
        y.machine.IsSound sound := by
  cases h with
  | played h hi hf =>
    rw [Input.eq_of_running hi]
    cases hf with
    | delivered _ hm hd =>
      cases hd with
      | complete hp ha =>
        exact ⟨h, nofun, rfl, _, _, _, rfl, hm, (Machine.picture?_eq_some_iff ..).1 hp,
          (Machine.sound?_eq_some_iff ..).1 ha⟩

theorem RunCourse.protocol {r : Except (Stop Failure) Unit} (h : RunCourse limit x a ns y r)
    (hx : x.Live) (hr : r ≠ .error .outOfRange) :
    ∃ shown tail, Protocol limit x y a.exchanges r shown tail := by
  induction h with
  | last h =>
    obtain ⟨htail, hframes⟩ := h.tail hx hr
    exact ⟨[], _, rfl, hframes, nofun, _, .nil, htail⟩
  | @next x y z a b ns ms r h _ ih =>
    obtain ⟨hbelow, hy, hframes, keys, picture, sound, ha, hm, hp, hs⟩ := h.shown
    obtain ⟨shown, tail, hexchanges, hlast, hrest, m, hplayed, htail⟩ := ih hy hr
    refine ⟨⟨keys, picture, sound⟩ :: shown, tail, ?_, ?_, ?_, m, .cons hm hp hs hplayed, ?_⟩
    · rw [Account.exchanges_append, ha, hexchanges, List.flatMap_cons, List.append_assoc]
    · rw [hlast, hframes, List.length_cons]
      omega
    · intro i hi
      cases i with
      | zero => exact hbelow
      | succ i =>
        have := hrest i (Nat.lt_of_succ_lt_succ hi)
        rwa [hframes, Nat.add_right_comm] at this
    · rw [hframes, Nat.add_right_comm] at htail
      exact htail

end Courses

namespace Session

variable {σ : Type}

/-- **What a run says to its host.** If it does not reach beyond the memory, as it never
does over a full one, its exchanges are whole frames and a tail, and its calls are
those of its exchanges. Any other run from the same standing and under the same
limit that was answered alike, as far as it was answered, is the same run: on
another host, with other pacing and another clock. -/
theorem run_keeps_protocol {host : Host σ} {fuel : Nat} {s : Session σ} {o : Outcome σ}
    (hs : s.standing.Live) (ho : s.run host fuel = some o) :
    calls o.events = (s.runAccount host fuel).exchanges.map Exchange.call ∧
      (s.machine.Full → o.result ≠ .error .outOfRange) ∧
      (o.result ≠ .error .outOfRange → ∃ shown tail, Protocol s.limit s.standing
        o.session.standing (s.runAccount host fuel).exchanges o.result shown tail) ∧
      ∀ {τ : Type} (other : Host τ) (fuel' : Nat) (t : Session τ) (p : Outcome τ),
        t.run other fuel' = some p → t.standing = s.standing → t.limit = s.limit →
        ∀ answers, (s.runAccount host fuel).answers <+: answers →
          (t.runAccount other fuel').answers <+: answers →
          t.runAccount other fuel' = s.runAccount host fuel ∧ calls p.events = calls o.events ∧
            errors p.events = errors o.events ∧ p.session.standing = o.session.standing ∧
            p.result = o.result := by
  have hrun := run_takes ho
  refine ⟨hrun.calls, fun hfull => ?_, hrun.course.protocol hs, ?_⟩
  · have hintact : s.standing.Intact := ⟨hfull, fun f hf => absurd hf (hs f)⟩
    exact (hrun.course.harmless hintact).inRange
  · intro τ other fuel' t p hp hstanding hlimit answers hl hl'
    have hother := run_takes hp
    rw [hstanding, hlimit] at hother
    obtain ⟨haccount, herrors, hend, hresult⟩ := hother.course.unique hrun.course hl' hl
    refine ⟨haccount, ?_, herrors, hend, hresult⟩
    rw [hother.calls, hrun.calls, haccount]

/-- A session that the host stops after one frame. -/
def brief (m : Machine) (keys : Keypad) : Session Script :=
  new m ⟨[.ok ⟨true, keys⟩], [], [], 0, 0⟩ (.new .unlimited 0) none

/-- The same session with its frame shown. -/
def briefShown (m n : Machine) (keys : Keypad) : Session Script :=
  { (brief m keys).asked Script.host with machine := n, frames := 1 }

theorem run_brief {m n : Machine} {keys : Keypad} (hm : m.frame keys = (n, .ok ()))
    {picture sound : ByteArray} (hp : n.picture? = some picture) (ha : n.sound? = some sound) :
    ∃ o, (brief m keys).run Script.host 2 = some o ∧ o.session.frames = 1 ∧ o.result = .ok () := by
  have hframe : ((brief m keys).asked Script.host).frame Script.host keys =
      ⟨briefShown m n keys, [.call (.present picture), .call (.play sound)], .ok ()⟩ := by
    have hlive : ((brief m keys).asked Script.host).standing.Live := nofun
    exact frame_of_taken hlive hm hp ha rfl rfl
  have hfirst : (brief m keys).round Script.host = .again (briefShown m n keys)
      [.call .poll, .call (.present picture), .call (.play sound)] := by
    show playFrame Script.host keys ((brief m keys).asked Script.host) = _
    rw [playFrame, hframe]
    rfl
  have hlast : (briefShown m n keys).round Script.host =
      .over ⟨(briefShown m n keys).asked Script.host, [.call .poll, .notice (.hostStopped 1)],
        .ok ()⟩ := rfl
  refine ⟨⟨(briefShown m n keys).asked Script.host, [.notice (.running .unlimited)] ++
    ([.call .poll, .call (.present picture), .call (.play sound)] ++
      [.call .poll, .notice (.hostStopped 1)]), .ok ()⟩, ?_, rfl, rfl⟩
  simp only [run, rounds, hfirst, hlast, Option.map_some, Outcome.after]
  rfl

/-- A machine of zeros shows one frame before the host stops it. -/
theorem brief_keeps_protocol :
    (brief .blank .released).standing.Live ∧
      ∃ o, (brief .blank .released).run Script.host 2 = some o ∧ o.result = .ok () ∧
        ∃ shown tail, shown.length = 1 ∧
          Protocol none (brief .blank .released).standing o.session.standing
            ((brief .blank .released).runAccount Script.host 2).exchanges o.result shown tail := by
  have hlive : (brief .blank .released).standing.Live := nofun
  have hfull : Machine.blank.Full := Memory.size_blank _
  have hframe := Machine.frame_of_waiting hfull.five_le Machine.fetch_start_blank
  have hshown := Machine.full_frame .released hfull
  rw [hframe] at hshown
  obtain ⟨picture, hp⟩ := Machine.exists_picture (Machine.picture_le_of_full hshown)
  obtain ⟨sound, ha⟩ := Machine.exists_sound (Machine.sound_le_of_full hshown)
  obtain ⟨o, ho, hframes, hresult⟩ := run_brief hframe hp ha
  obtain ⟨-, hrange, hprotocol, -⟩ := run_keeps_protocol hlive ho
  obtain ⟨shown, tail, h⟩ := hprotocol (hrange hfull)
  refine ⟨hlive, o, ho, hresult, shown, tail, ?_, h⟩
  have hcount : o.session.frames = 0 + shown.length := h.frames
  omega

end Session

end ByteByteJump
