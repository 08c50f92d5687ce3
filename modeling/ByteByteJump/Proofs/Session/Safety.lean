import ByteByteJump.Host.Script
import ByteByteJump.Proofs.Machine.FullMemory
import ByteByteJump.Proofs.Session.History

/-! Sessions over a full memory are safe.

Nothing that is done to such a session reaches beyond the memory, however its
program rewrites itself and whatever its owner and its host do: the only fault
there is is a program counter among the last eight addresses or beyond, and the
picture and the sound are always there (`full_session_safe`). A host may also
answer with a fault of its own making, which an operation passes on. -/
namespace ByteByteJump

/-- An operation with these exchanges came out within the memory, and with no fault
but one at the end of memory or one of the host's. -/
structure Harmless (exchanges : List Exchange) (r : Except (Stop Failure) Unit) : Prop where
  inRange : r ≠ .error .outOfRange
  fault : ∀ f : Fault, r = .error (.failed (.fault f)) →
    f.AtEnd ∨ ∃ x ∈ exchanges, x.failure? = some (.fault f)

namespace Harmless

variable {xs ys : List Exchange} {r : Except (Stop Failure) Unit}

theorem ok : Harmless xs (.ok ()) := ⟨nofun, nofun⟩

theorem mono (h : Harmless xs r) (hsub : xs ⊆ ys) : Harmless ys r := by
  refine ⟨h.inRange, ?_⟩
  intro f hf
  rcases h.fault f hf with hend | ⟨x, hx, hfail⟩
  · exact .inl hend
  · exact .inr ⟨x, hsub hx, hfail⟩

theorem of_atEnd {f : Fault} (hf : f.AtEnd) : Harmless xs (.error (.failed (.fault f))) := by
  refine ⟨nofun, ?_⟩
  intro g hg
  cases hg
  exact .inl hf

/-- The host's failure is passed on. -/
theorem of_failure {x : Exchange} {e : Failure} (hx : x ∈ xs) (he : x.failure? = some e) :
    Harmless xs (.error (.failed e)) := by
  refine ⟨nofun, ?_⟩
  intro f hf
  cases hf
  exact .inr ⟨x, hx, he⟩

end Harmless

/-! ### What frames and runs keep -/

/-- A full memory, and at most a program counter at the end of memory has ended the
session. -/
structure Standing.Intact (x : Standing) : Prop where
  full : x.machine.Full
  atEnd : ∀ f, x.phase = .aborted f → f.AtEnd

section Courses
variable {x y : Standing} {a : Account} {ns : List Notice} {keys : Keypad} {limit : Option Nat}
  {m : Machine} {f : Fault} {r : Except (Stop Failure) Unit}

theorem Standing.Intact.full_of_frame (hx : x.Intact)
    {q : Except (Stop Fault) Unit} (hm : x.machine.frame keys = (m, q)) : m.Full := by
  have := Machine.full_frame keys hx.full
  rwa [hm] at this

theorem Standing.Intact.atEnd_of_frame (hx : x.Intact)
    (hm : x.machine.frame keys = (m, .error (.failed f))) : f.AtEnd :=
  Machine.atEnd_of_frame keys hx.full (by rw [hm])

theorem Standing.Intact.atEnd_of_attempt (hx : x.Intact)
    (hf : (x.attempt keys).fault? = some f) : f.AtEnd :=
  Machine.atEnd_of_frame keys hx.full (Attempt.fault?_eq_some_iff.1 hf)

theorem FrameCourse.intact (h : FrameCourse keys x a ns y r) (hx : x.Intact) : y.Intact := by
  cases h with
  | refused => exact hx
  | stuck _ hm => exact ⟨hx.full_of_frame hm, nofun⟩
  | faulted _ hm =>
    refine ⟨hx.full_of_frame hm, ?_⟩
    intro f hf
    cases hf
    exact hx.atEnd_of_frame hm
  | delivered _ hm => exact ⟨hx.full_of_frame hm, nofun⟩

/-- A frame of a full memory is not left halfway. -/
theorem FrameCourse.ne_running (h : FrameCourse keys x a ns y r) (hx : x.Intact)
    (hphase : x.phase ≠ .running) : y.phase ≠ .running := by
  cases h with
  | refused => exact hphase
  | stuck _ hm => exact absurd (by rw [hm]) (Machine.frame_ne_outOfRange hx.full.five_le _)
  | faulted => nofun
  | delivered => nofun

/-- Delivery cannot miss the picture or the sound. -/
theorem Delivery.harmless {n k : Nat} {xs : List Exchange} (h : Delivery m n xs k r)
    (hm : m.Full) : Harmless xs r := by
  cases h with
  | unshown hp =>
    obtain ⟨p, hp'⟩ := Machine.exists_picture (Machine.picture_le_of_full hm)
    cases hp.symm.trans hp'
  | presentFailed => exact .of_failure (.head _) rfl
  | unheard _ ha =>
    obtain ⟨p, ha'⟩ := Machine.exists_sound (Machine.sound_le_of_full hm)
    cases ha.symm.trans ha'
  | playFailed => exact .of_failure (.tail _ (.head _)) rfl
  | complete => exact .ok

theorem FrameCourse.harmless (h : FrameCourse keys x a ns y r) (hx : x.Intact) :
    Harmless a.exchanges r := by
  cases h with
  | refused hf => exact .of_atEnd (hx.atEnd _ hf)
  | stuck _ hm => exact absurd (by rw [hm]) (Machine.frame_ne_outOfRange hx.full.five_le _)
  | faulted _ hm => exact .of_atEnd (hx.atEnd_of_frame hm)
  | delivered _ hm hd => exact hd.harmless (hx.full_of_frame hm)

/-- A frame is at most one attempt. -/
theorem FrameCourse.eq_attempt (h : FrameCourse keys x a ns y r) {t : Attempt}
    (ht : t ∈ a.attempts) : t = x.attempt keys := by
  rcases h.machine_cases with ⟨-, hnone⟩ | ⟨-, hone⟩
  · rw [hnone] at ht
    cases ht
  · rw [hone] at ht
    exact List.mem_singleton.1 ht

theorem FrameCourse.attempts_atEnd (h : FrameCourse keys x a ns y r) (hx : x.Intact)
    {t : Attempt} (ht : t ∈ a.attempts) (hf : t.fault? = some f) : f.AtEnd := by
  rw [h.eq_attempt ht] at hf
  exact hx.atEnd_of_attempt hf

theorem RoundCourse.intact {q : Option (Except (Stop Failure) Unit)}
    (h : RoundCourse limit x a ns y q) (hx : x.Intact) : y.Intact := by
  cases h with
  | limit => exact hx
  | pollFailed => exact hx
  | stopped => exact hx
  | cut _ _ hf => exact hf.intact hx
  | played _ _ hf => exact hf.intact hx

theorem RoundCourse.harmless (h : RoundCourse limit x a ns y (some r)) (hx : x.Intact) :
    Harmless a.exchanges r := by
  cases h with
  | limit => exact .ok
  | pollFailed => exact .of_failure (.head _) rfl
  | stopped => exact .ok
  | cut _ _ hf => exact (hf.harmless hx).mono (List.subset_append_right _ _)

theorem RunCourse.harmless (h : RunCourse limit x a ns y r) (hx : x.Intact) :
    Harmless a.exchanges r := by
  induction h with
  | last h => exact h.harmless hx
  | next h _ ih => exact (ih (h.intact hx)).mono (List.subset_append_right _ _)

end Courses

/-! ### Every history -/

/-- One machine comes from the other by an action that itself names no byte outside a
full memory. -/
def Machine.Handled (m n : Machine) : Prop :=
  ∃ a : Action, a.Fits Address.reach ∧ n = (m.act a).1

/-- Whatever is done next to a session comes out within the memory, and what is
between operations is in order. -/
structure Session.Safe {σ : Type} (host : Host σ) (s : Session σ) : Prop where
  action : ∀ a : Machine.Action, a.Fits Address.reach → Harmless [] (s.machine.act a).2
  /-- No instruction of a frame misses its bytes. -/
  instruction : ∀ keys k n i, Machine.after k (s.machine.start keys) = .ok n → n.fetch = .ok i →
    n.execute? i = some (n.perform i)
  frame : ∀ keys, Harmless (s.frameAccount host keys).exchanges (s.frame host keys).result
  run : ∀ fuel o, s.run host fuel = some o → Harmless (s.runAccount host fuel).exchanges o.result
  picture : ∃ base p, s.machine.pictureBase? = some base ∧ base + 65536 ≤ Address.reach ∧
    s.machine.picture? = some p ∧ p.size = 65536
  sound : ∃ base p, s.machine.soundBase? = some base ∧ base + 256 ≤ Address.reach ∧
    s.machine.sound? = some p ∧ p.size = 256
  settled : s.phase ≠ .running
  aborted : ∀ f, s.phase = .aborted f → f.AtEnd

namespace Session

variable {σ : Type}

theorem safe_of_intact (host : Host σ) {s : Session σ} (hs : s.standing.Intact)
    (hphase : s.phase ≠ .running) : s.Safe host where
  action a ha := by
    refine ⟨Machine.act_ne_outOfRange hs.full ha, fun f hf => ?_⟩
    exact .inl (Machine.atEnd_of_act hs.full hf)
  instruction _ _ _ _ _ hi := Machine.execute?_of_fetch hi
  frame keys := (frame_takes host keys s).course.harmless hs
  run _ _ ho := (run_takes ho).course.harmless hs
  picture := by
    have hfits := Machine.picture_le_of_full hs.full
    obtain ⟨p, hp⟩ := Machine.exists_picture hfits
    rw [hs.full] at hfits
    exact ⟨_, p, Machine.pictureBase?_eq (hs.full.le (by decide)), hfits, hp,
      ((Machine.picture?_eq_some_iff _ p).1 hp).size⟩
  sound := by
    have hfits := Machine.sound_le_of_full hs.full
    obtain ⟨p, hp⟩ := Machine.exists_sound hfits
    rw [hs.full] at hfits
    exact ⟨_, p, Machine.soundBase?_eq (hs.full.le (by decide)), hfits, hp,
      ((Machine.sound?_eq_some_iff _ p).1 hp).size⟩
  settled := hphase
  aborted := hs.atEnd

/-- **A session over a full memory is safe after every history**: of runs, frames and
actions on its machine, with any host, pacing and limit. No frame in it had any fault
but one at the end of memory. -/
theorem full_session_safe {host : Host σ} {m : Machine} (hm : m.Full) {state : σ} {pacer : Pacer}
    {limit : Option Nat} {events : List Event} {a : Account} {t : Session σ}
    (h : History host Machine.Handled (new m state pacer limit) events a t) :
    (∀ x ∈ a.attempts, ∀ f : Fault, x.fault? = some f → f.AtEnd) ∧ t.Safe host := by
  have hkept : (∀ x ∈ a.attempts, ∀ f : Fault, x.fault? = some f → f.AtEnd) ∧
      t.standing.Intact ∧ t.phase ≠ .running := by
    refine h.keeps
      (P := fun a _ x => (∀ t ∈ a.attempts, ∀ f : Fault, t.fault? = some f → f.AtEnd) ∧
        x.Intact ∧ x.phase ≠ .running)
      ?poll ?frame ?change ?start
    case poll =>
      intro a ns x hx answer
      simpa using hx
    case frame =>
      intro a ns x ⟨hpast, hx, hphase⟩ keys b ms y r hf
      refine ⟨?_, hf.intact hx, hf.ne_running hx hphase⟩
      intro t ht f hfault
      rcases List.mem_append.1 ht with ht | ht
      · exact hpast t ht f hfault
      · exact hf.attempts_atEnd hx ht hfault
    case change =>
      intro a ns x ⟨hpast, hx, hphase⟩ m ⟨action, _, hm⟩
      refine ⟨hpast, ⟨?_, hx.atEnd⟩, hphase⟩
      rw [hm]
      exact Machine.full_act action hx.full
    case start => exact ⟨nofun, ⟨hm, nofun⟩, nofun⟩
  exact ⟨hkept.1, safe_of_intact host hkept.2.1 hkept.2.2⟩

/-- A session over a full memory whose runs are over at once. -/
def halted : Session Script := new .blank ⟨[], [], [], 0, 0⟩ (.new .unlimited 0) (some 0)

/-- A run, a program counter set far beyond the memory, and a frame after that. -/
theorem stray_session_safe :
    Machine.blank.Full ∧
      (({ halted with machine := halted.machine.jump 0xFFFFFFFF } : Session Script).frame
        Script.host .released).session.Safe Script.host := by
  have hfull : Machine.blank.Full := Memory.size_blank _
  have hrun : halted.run Script.host 1 =
      some ⟨halted, [.notice (.running .unlimited), .notice (.limitReached 0)], .ok ()⟩ := rfl
  have hjump : Machine.Handled halted.machine (halted.machine.jump 0xFFFFFFFF) :=
    ⟨.jump 0xFFFFFFFF, trivial, rfl⟩
  exact ⟨hfull, (full_session_safe hfull (.frame (.change (.run .start hrun) hjump) .released)).2⟩

end Session

end ByteByteJump
