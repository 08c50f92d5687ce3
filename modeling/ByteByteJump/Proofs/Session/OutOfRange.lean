import ByteByteJump.Host.Script
import ByteByteJump.Proofs.Machine.Cell
import ByteByteJump.Proofs.Machine.Output
import ByteByteJump.Proofs.Machine.Waiting
import ByteByteJump.Proofs.Memory.Splice
import ByteByteJump.Proofs.Session.History

/-! Where a frame reaches beyond the memory, and what it leaves then.

A frame of a small memory may find a byte missing in five places: for the keys, for the
entry point, in the instructions, and in the picture and the sound after them. The first
two are the header, and only a memory of fewer than five bytes has no room for it. An
instruction that was fetched has its bytes (`Machine.execute?_of_fetch`), so no step ends
the frame that way (`Machine.frame_ne_outOfRange`), and one that was executed shows that
there are nine bytes. So the places of the picture and of the sound can always be read when
they are asked for, and whether these fit is told by the header that the frame left.
`FrameRange` lists the ways, each with all that it leaves.

A session is seen in the middle of a frame only where the header had no room, so not after
any history over five bytes or more. -/
namespace ByteByteJump

namespace Machine

variable {m n : Machine} {keys : Keypad}

/-! ### The header -/

theorem spliced_latch (h : m.memory.size < UInt32.size) (keys : Keypad) :
    m.memory.Spliced 0 (keys.bytes.take m.memory.size) (m.latch keys).1.memory :=
  Memory.spliced_write h 0 keys.bytes

/-- Without room for the header a frame ends with the keys, as far as there is room for them. -/
theorem frame_of_small (h : m.memory.size < 5) (keys : Keypad) :
    m.frame keys = ((m.latch keys).1, .error .outOfRange) := by
  have hsize := size_latch keys m
  unfold frame
  cases hlatch : m.latch keys with
  | mk latched r =>
    rw [hlatch] at hsize
    cases r with
    | error _ => rfl
    | ok _ =>
      have hentry : latched.memory.address? Header.entry = none := by
        refine dif_neg (Nat.not_le.2 ?_)
        show latched.memory.size < 5
        rwa [hsize]
      simp only [hentry]

/-- A frame that goes well has executed an instruction, which has nine bytes. -/
theorem nine_le_of_frame (h : m.frame keys = (n, .ok ())) : 9 ≤ m.memory.size := by
  by_cases h5 : 5 ≤ m.memory.size
  · rcases frame_cases h5 keys with ⟨last, hlast, -⟩ | ⟨_, _, _, _, _, _, hframe⟩
    · -- There is a first instruction, as a frame has some.
      obtain ⟨k, hk⟩ : ∃ k, frameLength = k + 1 := ⟨65535, rfl⟩
      rw [hk] at hlast
      obtain ⟨_, hstep, -⟩ := after_succ_eq_ok_iff.1 hlast
      obtain ⟨_, hfetch, -⟩ := step_eq_ok_iff.1 hstep
      have hroom := room_of_fetch hfetch
      rw [size_start] at hroom
      exact Nat.le_trans (Nat.le_add_left 9 _) hroom
    · cases h.symm.trans hframe
  · cases h.symm.trans (frame_of_small (Nat.lt_of_not_le h5) keys)

/-! ### The picture and the sound -/

theorem picture?_eq_none_iff {base : Nat} (h : m.pictureBase? = some base) :
    m.picture? = none ↔ m.memory.size < base + pictureSize := by
  rw [picture?, h, Option.bind_eq_bind, Option.bind_some, ← Option.not_isSome_iff_eq_none,
    Memory.slice?_isSome_iff, Nat.not_le]

theorem sound?_eq_none_iff {base : Nat} (h : m.soundBase? = some base) :
    m.sound? = none ↔ m.memory.size < base + soundSize := by
  rw [sound?, h, Option.bind_eq_bind, Option.bind_some, ← Option.not_isSome_iff_eq_none,
    Memory.slice?_isSome_iff, Nat.not_le]

end Machine

namespace Session

variable {σ : Type} {host : Host σ} {s t : Session σ} {keys : Keypad}

theorem deliver_of_unshown (hp : s.machine.picture? = none) :
    s.deliver host = ⟨s, [], .error .outOfRange⟩ := by
  unfold deliver
  simp only [hp]

theorem deliver_of_unheard {picture : ByteArray} {state : σ}
    (hp : s.machine.picture? = some picture)
    (hpresent : host.present picture s.host = (.ok (), state)) (ha : s.machine.sound? = none) :
    s.deliver host =
      ⟨{ s with host := state }, [.call (.present picture)], .error .outOfRange⟩ := by
  unfold deliver
  simp only [hp, hpresent, playSound, ha, Outcome.after, List.append_nil]

/-- Handing out a frame stops only at a picture that is not there, or after the picture at
a sound that is not there. -/
theorem deliver_outOfRange_iff :
    (s.deliver host).result = .error .outOfRange ↔
      s.machine.picture? = none ∨
        (∃ picture, s.machine.picture? = some picture ∧
          (host.present picture s.host).1 = .ok ()) ∧ s.machine.sound? = none := by
  cases hp : s.machine.picture? with
  | none => simp [deliver_of_unshown hp]
  | some picture =>
    rcases hpresent : host.present picture s.host with ⟨e | _, state⟩
    · simp [deliver, hp, hpresent]
    · cases ha : s.machine.sound? with
      | none => simp [deliver_of_unheard hp hpresent ha, hpresent]
      | some sound =>
        rcases hplay : host.play sound state with ⟨e | _, after⟩
        · simp [deliver, hp, hpresent, playSound, ha, hplay, Outcome.after]
        · simp [deliver, hp, hpresent, playSound, ha, hplay, Outcome.after]

/-! ### One frame -/

/-- What comes of a frame whose instructions left `n`. -/
structure Handout (host : Host σ) (s : Session σ) (n : Machine) (o : Outcome σ) : Prop where
  size : n.memory.size = s.machine.memory.size
  machine : o.session.machine = n
  phase : o.session.phase = .idle
  pictureBase : n.pictureBase? = some n.pictureStart
  soundBase : n.soundBase? = some n.soundStart
  stops : o.result = .error .outOfRange ↔
    n.memory.size < n.pictureStart + 65536 ∨
      (∃ p, n.picture? = some p ∧ (host.present p s.host).1 = .ok ()) ∧
        n.memory.size < n.soundStart + 256
  unshown : n.memory.size < n.pictureStart + 65536 →
    o = ⟨{ s with machine := n, phase := .idle }, [], .error .outOfRange⟩
  unheard : ∀ p state, n.picture? = some p → host.present p s.host = (.ok (), state) →
    n.memory.size < n.soundStart + 256 →
      o = ⟨{ s with machine := n, host := state, phase := .idle }, [.call (.present p)],
        .error .outOfRange⟩

/-- Where a frame reaches beyond the memory, and how it comes out. -/
structure FrameRange (host : Host σ) (keys : Keypad) (s : Session σ) : Prop where
  /-- Nothing is executed, and of the keys is written what has room. -/
  noHeader : s.machine.memory.size < 5 →
    ∃ memory, s.machine.memory.Spliced 0 (keys.bytes.take s.machine.memory.size) memory ∧
      s.frame host keys =
        ⟨{ s with machine := { s.machine with memory }, phase := .running }, [],
          .error .outOfRange⟩
  header : 5 ≤ s.machine.memory.size → (s.machine.frame keys).2 ≠ .error .outOfRange
  /-- Every instruction that the frame fetches copies a byte that is there to a place that is. -/
  instruction : 5 ≤ s.machine.memory.size → ∀ k n i,
    Machine.after k (s.machine.start keys) = .ok n → n.fetch = .ok i →
      n.execute? i = some (n.perform i)
  faulted : ∀ n f, s.machine.frame keys = (n, .error (.failed f)) →
    s.frame host keys =
      ⟨{ s with machine := n, phase := .aborted f },
        [.notice (.frameAborted s.frames n.executed f)], .error (.failed (.fault f))⟩
  completed : ∀ n, s.machine.frame keys = (n, .ok ()) → Handout host s n (s.frame host keys)

theorem frame_of_small (hs : s.standing.Live) (h : s.machine.memory.size < 5) (keys : Keypad) :
    s.frame host keys =
      ⟨{ s with machine := (s.machine.latch keys).1, phase := .running }, [],
        .error .outOfRange⟩ := by
  rw [frame_of_live hs, Machine.frame_of_small h]

theorem handout_of_completed (hs : s.standing.Live) {n : Machine}
    (hn : s.machine.frame keys = (n, .ok ())) : Handout host s n (s.frame host keys) := by
  have hsize : n.memory.size = s.machine.memory.size := by
    have := Machine.size_frame keys s.machine
    rwa [hn] at this
  have hnine : 9 ≤ n.memory.size := hsize.symm ▸ Machine.nine_le_of_frame hn
  have hpicture := Machine.pictureBase?_eq (m := n) (by omega)
  have hsound := Machine.soundBase?_eq (m := n) (by omega)
  -- From here on the frame is the handing out of what its instructions left.
  let left : Session σ := { s with machine := n, phase := .idle }
  have hframe : s.frame host keys = left.deliver host := by rw [frame_of_live hs, hn]
  rw [hframe]
  obtain ⟨-, hdeliver⟩ := deliver_course host left
  have hstanding := hdeliver.course.2
  refine ⟨hsize, congrArg Standing.machine hstanding, congrArg Standing.phase hstanding,
    hpicture, hsound, ?_, fun hbeyond => ?_, fun p state hp hpresent hbeyond => ?_⟩
  · rw [deliver_outOfRange_iff, Machine.picture?_eq_none_iff hpicture,
      Machine.sound?_eq_none_iff hsound]
    rfl
  · exact deliver_of_unshown ((Machine.picture?_eq_none_iff hpicture).2 hbeyond)
  · exact deliver_of_unheard (s := left) hp hpresent
      ((Machine.sound?_eq_none_iff hsound).2 hbeyond)

theorem frameRange_of_live (host : Host σ) (keys : Keypad) (hs : s.standing.Live) :
    s.FrameRange host keys where
  noHeader h :=
    ⟨_, Machine.spliced_latch (Nat.lt_trans h (by decide)) keys, frame_of_small hs h keys⟩
  header h := Machine.frame_ne_outOfRange h keys
  instruction _ _ _ _ _ hi := Machine.execute?_of_fetch hi
  faulted n f hn := by rw [frame_of_live hs, hn]
  completed _ hn := handout_of_completed hs hn

/-! ### Every history -/

/-- If a session is in the middle of a frame, its memory has no room for the header. -/
def RunningOnlyIfSmall (x : Standing) : Prop := x.phase = .running → x.machine.memory.size < 5

theorem runningOnlyIfSmall_of_course {x y : Standing} {a : Account} {ns : List Notice}
    {r : Except (Stop Failure) Unit} (h : FrameCourse keys x a ns y r)
    (hx : RunningOnlyIfSmall x) : RunningOnlyIfSmall y := by
  cases h with
  | refused => exact hx
  | @stuck m _ hm =>
    intro _
    have hsize := Machine.size_frame keys x.machine
    rw [hm] at hsize
    show m.memory.size < 5
    rw [hsize]
    refine Nat.lt_of_not_le fun hroom => ?_
    exact Machine.frame_ne_outOfRange hroom keys (by rw [hm])
  | faulted => nofun
  | delivered => nofun

theorem runningOnlyIfSmall_of_history {events : List Event} {a : Account} (hs : s.phase ≠ .running)
    (h : History host (fun m n => n.memory.size = m.memory.size) s events a t) :
    RunningOnlyIfSmall t.standing := by
  refine h.keeps (P := fun _ _ x => RunningOnlyIfSmall x) ?poll ?frame ?change ?start
  case poll => exact fun hx _ => hx
  case frame => exact fun hx _ _ _ _ _ hf => runningOnlyIfSmall_of_course hf hx
  case change =>
    intro a ns x hx m hm hphase
    show m.memory.size < 5
    rw [hm]
    exact hx hphase
  case start => exact fun hphase => absurd hphase hs

/-- **A frame reaches beyond the memory at its header, its picture or its sound, and
nowhere else**, whatever the memory, the keys and the host. Hence a session that was not
in the middle of a frame is never seen there later unless its memory has fewer than five
bytes, whatever is put into the memory between its frames and runs. -/
theorem frame_range_exact (host : Host σ) :
    (∀ (s : Session σ) (keys : Keypad), s.standing.Live → s.FrameRange host keys) ∧
      ∀ (s t : Session σ) (events : List Event) (a : Account), s.phase ≠ .running →
        History host (fun m n => n.memory.size = m.memory.size) s events a t →
          t.phase = .running → t.machine.memory.size < 5 :=
  ⟨fun _ keys hs => frameRange_of_live host keys hs,
    fun _ _ _ _ hs h => runningOnlyIfSmall_of_history hs h⟩

/-- Room for the keys and for no more of the header than that. -/
def stub : Session Script :=
  new (.ofMemory ⟨⟨#[7, 7]⟩⟩) ⟨[], [], [], 0, 0⟩ (.new .unlimited 0) none

/-- Room for one instruction, which waits. -/
def nook : Session Script :=
  new (.ofMemory ⟨⟨#[0, 0, 0, 0, 0, 0, 0, 0, 0]⟩⟩) ⟨[], [], [], 0, 0⟩ (.new .unlimited 0) none

/-- `stub` is left with the keys in the middle of a frame. `nook` executes its first instruction
and is left at a picture that it has no room for. -/
theorem stub_and_nook_stop :
    stub.standing.Live ∧ nook.standing.Live ∧
      ((stub.frame Script.host (Keypad.released.press 15)).session.phase = .running ∧
        (stub.frame Script.host (Keypad.released.press 15)).session.machine.memory.size < 5) ∧
      (nook.machine.start .released).execute? ⟨0, 0, 0⟩ =
        some ((nook.machine.start .released).perform ⟨0, 0, 0⟩) ∧
      (nook.frame Script.host .released).result = .error .outOfRange ∧
        (nook.frame Script.host .released).events = [] := by
  obtain ⟨hframe, hhistory⟩ := frame_range_exact Script.host
  have hstub : stub.standing.Live := nofun
  have hnook : nook.standing.Live := nofun
  obtain ⟨memory, -, hstop⟩ := (hframe stub (Keypad.released.press 15) hstub).noHeader (by decide)
  have hphase : (stub.frame Script.host (Keypad.released.press 15)).session.phase = .running := by
    rw [hstop]
  have hwait : nook.machine.frame .released = _ := Machine.frame_of_waiting (by decide) (a := 0) rfl
  have hhandout := (hframe nook .released hnook).completed _ hwait
  have hexecuted := (hframe nook .released hnook).instruction (by decide) 0 _ ⟨0, 0, 0⟩ rfl rfl
  rw [hhandout.unshown (by decide)]
  exact ⟨hstub, hnook, ⟨hphase, hhistory stub _ _ _ nofun (.frame .start _) hphase⟩, hexecuted,
    rfl, rfl⟩

end Session

end ByteByteJump
