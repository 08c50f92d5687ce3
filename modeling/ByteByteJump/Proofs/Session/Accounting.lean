import Mathlib.Data.List.Forall2
import ByteByteJump.Host.Script
import ByteByteJump.Proofs.Machine.Confined
import ByteByteJump.Proofs.Machine.Waiting
import ByteByteJump.Proofs.Session.History

/-! What becomes of the frames that a session runs.

A frame that the machine completes is shown once, and what is shown is played if
the host took it. The host may refuse either, at any time: then the frame does not
count, but it is done with, and the next one follows from where it ended
(`Resumes`). So at every moment the frames that count, the pictures and the sounds
that were refused, and the frames that the machine completed add up (`Balanced`). -/
namespace ByteByteJump

/-! ### Counting -/

/-- A picture shown, with the host's answer. -/
def Exchange.present? : Exchange → Option (ByteArray × Except Failure Unit)
  | .present picture answer => some (picture, answer)
  | _ => none

/-- A sound played, with the host's answer. -/
def Exchange.play? : Exchange → Option (ByteArray × Except Failure Unit)
  | .play sound answer => some (sound, answer)
  | _ => none

/-- A picture or a sound that the host refused. -/
def Exchange.Refused : Exchange → Prop
  | .present _ (.error _) => True
  | .play _ (.error _) => True
  | _ => False

/-- How many outputs the host took. -/
def taken (outputs : List (ByteArray × Except Failure Unit)) : Nat := outputs.countP (·.2.isOk)

/-- How many outputs the host refused. -/
def refused (outputs : List (ByteArray × Except Failure Unit)) : Nat := outputs.countP (!·.2.isOk)

/-- The machine ran the frame to its end. -/
def Attempt.completed (t : Attempt) : Bool := (t.machine.frame t.keys).2.isOk

namespace Account

def presents (a : Account) : List (ByteArray × Except Failure Unit) :=
  a.exchanges.filterMap Exchange.present?

def plays (a : Account) : List (ByteArray × Except Failure Unit) :=
  a.exchanges.filterMap Exchange.play?

/-- The frames that the machine ran to their end. -/
def completed (a : Account) : List Attempt := a.attempts.filter Attempt.completed

/-- The host refused a picture or a sound. -/
def Refused (a : Account) : Prop := ∃ x ∈ a.exchanges, x.Refused

variable (a b : Account)

@[simp] theorem presents_append : (a ++ b).presents = a.presents ++ b.presents :=
  List.filterMap_append

@[simp] theorem plays_append : (a ++ b).plays = a.plays ++ b.plays :=
  List.filterMap_append

@[simp] theorem completed_append : (a ++ b).completed = a.completed ++ b.completed :=
  List.filter_append ..

end Account

@[simp] theorem taken_append (xs ys : List (ByteArray × Except Failure Unit)) :
    taken (xs ++ ys) = taken xs + taken ys := List.countP_append

@[simp] theorem refused_append (xs ys : List (ByteArray × Except Failure Unit)) :
    refused (xs ++ ys) = refused xs + refused ys := List.countP_append

/-- The account of so many frames that count. -/
structure Balanced (a : Account) (frames : Nat) : Prop where
  plays : frames = taken a.plays
  presents : taken a.presents = frames + refused a.plays
  completed : a.completed.length = a.presents.length
  total : a.presents.length = frames + refused a.presents + refused a.plays

namespace Balanced

variable {a b : Account} {i j : Nat}

theorem empty : Balanced .empty 0 := ⟨rfl, rfl, rfl, rfl⟩

theorem append (ha : Balanced a i) (hb : Balanced b j) : Balanced (a ++ b) (i + j) := by
  have := ha.plays; have := ha.presents; have := ha.completed; have := ha.total
  have := hb.plays; have := hb.presents; have := hb.completed; have := hb.total
  constructor <;> simp only [Account.presents_append, Account.plays_append,
    Account.completed_append, taken_append, refused_append, List.length_append] <;> omega

end Balanced

/-- Each completed frame was shown once, in order, as its own picture. -/
def Depicted (a : Account) : Prop :=
  List.Forall₂ (fun t p => (t.machine.frame t.keys).1.IsPicture p.1) a.completed a.presents

theorem Depicted.append {a b : Account} (ha : Depicted a) (hb : Depicted b) : Depicted (a ++ b) := by
  rw [Depicted, Account.completed_append, Account.presents_append]
  exact List.rel_append ha hb

/-! ### Courses -/

section Courses
variable {x y : Standing} {a : Account} {ns : List Notice} {keys : Keypad} {limit : Option Nat}
  {m : Machine} {r : Except (Stop Failure) Unit}

theorem Standing.completed_attempt {q : Except (Stop Fault) Unit}
    (hm : x.machine.frame keys = (m, q)) (exchanges : List Exchange) :
    (Account.mk exchanges [x.attempt keys]).completed = if q.isOk then [x.attempt keys] else [] := by
  have hcompleted : (x.attempt keys).completed = q.isOk := by
    rw [Attempt.completed, attempt, hm]
  rw [Account.completed, List.filter_singleton, hcompleted, Bool.cond_eq_ite]

/-- Handing out a completed frame, with its picture and its sound there. -/
theorem Delivery.balanced {n k : Nat} {xs : List Exchange} (h : Delivery m n xs k r)
    (hp : m.picture? ≠ none) (ha : m.sound? ≠ none) (hm : x.machine.frame keys = (m, .ok ())) :
    ∃ j, k = n + j ∧ Balanced ⟨xs, [x.attempt keys]⟩ j ∧ Depicted ⟨xs, [x.attempt keys]⟩ := by
  have hcompleted : (Account.mk xs [x.attempt keys]).completed = [x.attempt keys] :=
    Standing.completed_attempt hm xs
  have hdepicted (p : ByteArray) (answer : Except Failure Unit) (hp : m.picture? = some p)
      (hpresents : (Account.mk xs [x.attempt keys]).presents = [(p, answer)]) :
      Depicted ⟨xs, [x.attempt keys]⟩ := by
    rw [Depicted, hcompleted, hpresents]
    refine .cons ?_ .nil
    rw [Standing.attempt, hm]
    exact (Machine.picture?_eq_some_iff m p).1 hp
  cases h with
  | unshown hnone => exact absurd hnone hp
  | presentFailed hp =>
    exact ⟨0, rfl, ⟨rfl, rfl, congrArg List.length hcompleted, rfl⟩, hdepicted _ _ hp rfl⟩
  | unheard _ hnone => exact absurd hnone ha
  | playFailed hp =>
    exact ⟨0, rfl, ⟨rfl, rfl, congrArg List.length hcompleted, rfl⟩, hdepicted _ _ hp rfl⟩
  | complete hp =>
    exact ⟨1, rfl, ⟨rfl, rfl, congrArg List.length hcompleted, rfl⟩, hdepicted _ _ hp rfl⟩

/-- What one frame adds. -/
theorem FrameCourse.balanced (h : FrameCourse keys x a ns y r)
    (hx : x.Live → x.machine.Confined) :
    ∃ j, y.frames = x.frames + j ∧ Balanced a j ∧ Depicted a := by
  cases h with
  | refused => exact ⟨0, rfl, .empty, .nil⟩
  | stuck hlive hm => exact absurd (by rw [hm]) ((hx hlive).frames .refl keys)
  | faulted hlive hm =>
    have hcompleted : (Account.mk [] [x.attempt keys]).completed = [] :=
      Standing.completed_attempt hm []
    refine ⟨0, rfl, ⟨rfl, rfl, congrArg List.length hcompleted, rfl⟩, ?_⟩
    rw [Depicted, hcompleted]
    exact .nil
  | delivered hlive hm hd =>
    obtain ⟨hp, ha⟩ := (hx hlive).outputs .refl hm
    exact hd.balanced hp ha hm

theorem FrameCourse.confined (h : FrameCourse keys x a ns y r)
    (hx : x.Live → x.machine.Confined) (hy : y.Live) : y.machine.Confined := by
  cases h with
  | refused => exact hx hy
  | stuck hlive hm => exact absurd (by rw [hm]) ((hx hlive).frames .refl keys)
  | faulted => exact absurd rfl (hy _)
  | delivered hlive hm => exact (hx hlive).next hm

/-- A frame counts if it comes out well, and only then. -/
theorem FrameCourse.counts (h : FrameCourse keys x a ns y r) :
    (r = .ok () ↔ y.frames = x.frames + 1) ∧ (r ≠ .ok () → y.frames = x.frames) := by
  cases h with
  | refused => simp
  | stuck => simp
  | faulted => simp
  | delivered _ _ hd => cases hd <;> simp

/-- The last attempt was a complete frame, which left this standing. -/
structure LeftBy (t : Attempt) (a : Account) (y : Standing) : Prop where
  last : a.attempts.getLast? = some t
  machine : t.machine.frame t.keys = (y.machine, .ok ())
  phase : y.phase = .idle

/-- Only a complete frame has an output that can be refused. -/
theorem FrameCourse.leftBy (h : FrameCourse keys x a ns y r) (ha : a.Refused) :
    LeftBy (x.attempt keys) a y := by
  obtain ⟨e, he, hrefused⟩ := ha
  cases h with
  | refused => cases he
  | stuck => cases he
  | faulted => cases he
  | delivered _ hm => exact ⟨rfl, hm, rfl⟩

/-- A frame that comes out well has had nothing refused. -/
theorem FrameCourse.not_refused (h : FrameCourse keys x a ns y (.ok ())) : ¬ a.Refused := by
  rintro ⟨e, he, hrefused⟩
  cases h with
  | delivered _ _ hd =>
    cases hd with
    | complete =>
      rcases List.mem_pair.1 he with rfl | rfl
      · exact hrefused
      · exact hrefused

theorem Account.refused_of_polled {answer : Except Failure Input}
    (h : (⟨[.poll answer], []⟩ ++ a : Account).Refused) : a.Refused := by
  obtain ⟨e, he, hrefused⟩ := h
  rcases List.mem_cons.1 he with rfl | he
  · exact hrefused.elim
  · exact ⟨e, he, hrefused⟩

theorem RoundCourse.leftBy (h : RoundCourse limit x a ns y (some r)) (ha : a.Refused) :
    ∃ t, LeftBy t a y := by
  cases h with
  | limit => exact absurd ha (by simp [Account.Refused])
  | pollFailed => exact absurd ha (by simp [Account.Refused, Exchange.Refused])
  | stopped => exact absurd ha (by simp [Account.Refused, Exchange.Refused])
  | cut _ _ hf =>
    obtain ⟨hlast, hmachine, hphase⟩ := hf.leftBy (Account.refused_of_polled ha)
    exact ⟨_, hlast, hmachine, hphase⟩

theorem RoundCourse.not_refused (h : RoundCourse limit x a ns y none) : ¬ a.Refused := by
  cases h with
  | played _ _ hf => exact fun ha => hf.not_refused (Account.refused_of_polled ha)

/-- A run ends where an output is refused. -/
theorem RunCourse.leftBy (h : RunCourse limit x a ns y r) (ha : a.Refused) : ∃ t, LeftBy t a y := by
  induction h with
  | last h => exact h.leftBy ha
  | @next x y z a b ns ms r h _ ih =>
    have hb : b.Refused := by
      obtain ⟨e, he, hrefused⟩ := ha
      rcases List.mem_append.1 he with he | he
      · exact absurd ⟨e, he, hrefused⟩ h.not_refused
      · exact ⟨e, he, hrefused⟩
    obtain ⟨t, hlast, hmachine, hphase⟩ := ih hb
    refine ⟨t, ?_, hmachine, hphase⟩
    rw [Account.attempts_append, List.getLast?_append, hlast]
    rfl

end Courses

/-! ### Moments -/

/-- What holds of the account and the standing at every moment of a history that begins
with no frames. -/
structure Accounted (a : Account) (x : Standing) : Prop where
  balanced : Balanced a x.frames
  depicted : Depicted a
  confined : x.Live → x.machine.Confined

namespace Accounted

variable {a b : Account} {x y : Standing} {keys : Keypad} {ns : List Notice}
  {r : Except (Stop Failure) Unit}

theorem poll (h : Accounted a x) (answer : Except Failure Input) :
    Accounted (a ++ ⟨[.poll answer], []⟩) x :=
  ⟨h.balanced.append (j := 0) ⟨rfl, rfl, rfl, rfl⟩, h.depicted.append .nil, h.confined⟩

theorem frame (h : Accounted a x) (hf : FrameCourse keys x b ns y r) : Accounted (a ++ b) y := by
  obtain ⟨j, hframes, hbalanced, hdepicted⟩ := hf.balanced h.confined
  refine ⟨?_, h.depicted.append hdepicted, hf.confined h.confined⟩
  rw [hframes]
  exact h.balanced.append hbalanced

end Accounted

namespace Session

variable {σ : Type} {host : Host σ} {s t : Session σ} {a : Account}

theorem accounted_of_moment (h0 : s.frames = 0) (hs : s.machine.Confined)
    (h : Moment host (fun _ _ => False) s a t) : Accounted a t.standing := by
  refine h.keeps (P := Accounted) Accounted.poll (fun hx _ _ _ _ _ hf => hx.frame hf)
    (fun _ _ hm => hm.elim) ⟨?_, .nil, fun _ => hs⟩
  show Balanced .empty s.frames
  rw [h0]
  exact .empty

/-- The session stands where a complete frame left it, and goes on from there. -/
structure Resumes (host : Host σ) (last : Attempt) (t : Session σ) : Prop where
  phase : t.phase = .idle
  machine : last.machine.frame last.keys = (t.machine, .ok ())
  next : ∀ keys, (t.frameAccount host keys).attempts = [⟨t.machine, keys, t.frames⟩]

theorem resumes_of_leftBy {last : Attempt} (h : LeftBy last a t.standing) :
    t.Resumes host last where
  phase := h.phase
  machine := h.machine
  next keys := by
    have hlive : t.standing.Live := fun f hf => by cases h.phase.symm.trans hf
    rw [frameAccount_of_live hlive]
    rfl

/-- **The outputs of a session add up.** At every moment of a history of frames and runs
from no frames on, over a memory that no frame reaches beyond, the frames that count are
the sounds taken; the pictures taken are these and the sounds refused; and the frames that
the machine completed are the pictures shown, each its own and once, which are the frames
that count and everything refused. A frame counts exactly if it comes out well. Where a
frame or a run had an output refused, the session is idle on the machine of that frame,
and the next frame goes on from there. -/
theorem outputs_add_up (h0 : s.frames = 0) (hs : s.machine.Confined)
    (h : Moment host (fun _ _ => False) s a t) :
    Balanced a t.frames ∧ Depicted a ∧
      (∀ keys, ((t.frame host keys).result = .ok () ↔
          (t.frame host keys).session.frames = t.frames + 1) ∧
        ((t.frame host keys).result ≠ .ok () → (t.frame host keys).session.frames = t.frames)) ∧
      (∀ keys, (t.frameAccount host keys).Refused →
        (t.frame host keys).session.Resumes host (t.standing.attempt keys)) ∧
      ∀ fuel o, t.run host fuel = some o → (t.runAccount host fuel).Refused →
        ∃ last, (t.runAccount host fuel).attempts.getLast? = some last ∧
          o.session.Resumes host last := by
  have haccounted := accounted_of_moment h0 hs h
  refine ⟨haccounted.balanced, haccounted.depicted, fun keys => (frame_takes host keys t).course.counts,
    fun keys ha => resumes_of_leftBy ((frame_takes host keys t).course.leftBy ha), ?_⟩
  intro fuel o ho ha
  obtain ⟨last, hleft⟩ := (run_takes ho).course.leftBy ha
  exact ⟨last, hleft.last, resumes_of_leftBy hleft⟩

/-- A machine in front of a host that refuses the first picture. -/
def rebuffed (m : Machine) : Session Script :=
  new m ⟨[], [some (.window .notUpdated)], [], 0, 0⟩ (.new .unlimited 0) none

theorem frameAccount_rebuffed {m n : Machine} {keys : Keypad} (hm : m.frame keys = (n, .ok ()))
    {picture : ByteArray} (hp : n.picture? = some picture) :
    (rebuffed m).frameAccount Script.host keys =
      ⟨[.present picture (.error (.window .notUpdated))], [⟨m, keys, 0⟩]⟩ := by
  have hlive : (rebuffed m).standing.Live := nofun
  have hmachine : (rebuffed m).machine.frame keys = (n, .ok ()) := hm
  rw [frameAccount_of_live hlive, hmachine]
  simp only [deliverExchanges, hp]
  rfl

/-- The refused frame of a machine of zeros is complete and does not count. -/
theorem rebuffed_adds_up :
    (rebuffed .blank).frames = 0 ∧ (rebuffed .blank).machine.Confined ∧
      ((rebuffed .blank).frame Script.host .released).session.frames = 0 ∧
      (Account.empty ++ (rebuffed .blank).frameAccount Script.host .released).completed.length = 1 ∧
      ((rebuffed .blank).frame Script.host .released).session.Resumes Script.host
        ((rebuffed .blank).standing.attempt .released) := by
  have hfull : Machine.blank.Full := Memory.size_blank _
  have hconfined : (rebuffed .blank).machine.Confined := Machine.confined_of_full hfull
  have hframe := Machine.frame_of_waiting hfull.five_le Machine.fetch_start_blank
  have hshown := Machine.full_frame .released hfull
  rw [hframe] at hshown
  obtain ⟨picture, hp⟩ := Machine.exists_picture (Machine.picture_le_of_full hshown)
  have haccount := frameAccount_rebuffed hframe hp
  have hbegin : History Script.host (fun _ _ => False) (rebuffed .blank) [] .empty _ := .start
  obtain ⟨-, -, -, hresumes, -⟩ := outputs_add_up rfl hconfined (.settled hbegin)
  obtain ⟨hbalanced, -⟩ := outputs_add_up rfl hconfined (.settled (.frame hbegin .released))
  have hrefused : ((rebuffed .blank).frameAccount Script.host .released).Refused := by
    rw [haccount]
    exact ⟨_, .head _, trivial⟩
  refine ⟨rfl, hconfined, ?_, ?_, hresumes .released hrefused⟩
  · rw [hbalanced.plays, haccount]
    rfl
  · rw [hbalanced.completed, haccount]
    rfl

end Session

end ByteByteJump
