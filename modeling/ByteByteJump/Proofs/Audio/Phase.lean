import Mathlib.Logic.Function.Iterate
import ByteByteJump.Audio.Player
import ByteByteJump.Proofs.Audio.Rounding

/-! The phase of a player.

A call takes samples while one is due, and it may do so for ever. It has a result exactly if
some number of takes leaves none due (`catchUp?_eq_some_iff`). A phase is always a number of
single precision, and a take either leaves such a number as it was or makes it less by a whole
sample at least (`phase_take_or`). In the first case the same is true of all further takes; so a
call that has a result makes no more takes than the phase holds whole samples, and what it leaves
is told by so many steps (`caughtUp`).

At a device's rate a phase stays far below `2 ^ 24` (`Hold.Steady`), so that taking a whole
sample off it is exact. The samples that are taken for an output are then as many as the phase
holds, and every call has a result (`next?_of_steady`). -/
namespace ByteByteJump.Audio

namespace Hold

/-- The phase loses nothing when a whole sample is taken off it, and its step keeps it so. -/
structure Steady (h : Hold) : Prop where
  single : Single h.phase
  phase_lt : h.phase < 2 ^ 66
  step_le : h.step ≤ 2 ^ 56

variable {h : Hold} {rate : Nat}

theorem single_one : Single one := by
  show 2 ^ spareBits one ∣ one
  decide +kernel

theorem one_lt : one < 2 ^ 66 := by
  decide

theorem one_pos : 0 < one := by
  decide

theorem one_eq : one = 2 ^ 42 := by
  decide

theorem stepAt_of_pos (hrate : 0 < rate) :
    stepAt rate = roundQuotient (sourceRate * one) (round rate) :=
  if_neg (Nat.ne_of_gt hrate)

theorem steady_ofRate (hrate : 0 < rate) : (ofRate rate).Steady where
  single := single_one
  phase_lt := one_lt
  step_le := by
    show stepAt rate ≤ 2 ^ 56
    rw [stepAt_of_pos hrate]
    apply roundQuotient_le
    exact Nat.lt_of_le_of_lt (Nat.div_le_self ..) (by decide)

/-- A whole sample is taken off the phase exactly. -/
theorem single_sub_one (hh : h.Steady) : Single (h.phase - one) := by
  have hspare : spareBits h.phase ≤ 42 := spareBits_le hh.phase_lt
  have hone : 2 ^ spareBits h.phase ∣ one := Nat.pow_dvd_pow 2 hspare
  exact Nat.dvd_trans (Nat.pow_dvd_pow 2 (spareBits_mono (Nat.sub_le h.phase one)))
    (Nat.dvd_sub hh.single hone)

theorem phase_give (hh : h.Steady) (s : Sample) : (h.give s).phase = h.phase - one :=
  round_of_single (single_sub_one hh)

theorem step_give (s : Sample) : (h.give s).step = h.step := by
  rw [give]

theorem Steady.give (hh : h.Steady) (s : Sample) : (h.give s).Steady where
  single := by
    rw [phase_give hh]
    exact single_sub_one hh
  phase_lt := by
    rw [phase_give hh]
    exact Nat.lt_of_le_of_lt (Nat.sub_le h.phase one) hh.phase_lt
  step_le := by
    rw [step_give]
    exact hh.step_le

theorem Steady.advance (hh : h.Steady) (hdone : h.phase < one) : h.advance.Steady where
  single := single_round _
  phase_lt := by
    have hsum : h.phase + h.step < 2 ^ 57 := by
      have hstep := hh.step_le
      have hone : one ≤ 2 ^ 56 := by decide
      omega
    exact Nat.lt_of_le_of_lt (round_le hsum) (by decide)
  step_le := hh.step_le

end Hold

namespace Player

variable {p q : Player} {s : Sample} {n : Nat}

theorem hold_push (p : Player) (samples : List Sample) : (p.push samples).1.hold = p.hold := by
  rw [push]

theorem hold_take (p : Player) : p.take.hold = p.hold.give (p.queue.pop.1.getD .silence) := by
  rw [take]

theorem steady_take (hp : p.hold.Steady) : p.take.hold.Steady := by
  rw [hold_take]
  exact hp.give _

/-! ### Takes one after the other -/

theorem catchUp?_of_due (h : Hold.one ≤ p.hold.phase) : p.catchUp? = p.take.catchUp? := by
  rw [catchUp?, if_pos h]

theorem catchUp?_of_done (h : p.hold.phase < Hold.one) : p.catchUp? = some p := by
  rw [catchUp?, if_neg (Nat.not_le.2 h)]

/-- A sample is due before each of `n` takes, and none after them. -/
structure StopsAfter (p : Player) (n : Nat) : Prop where
  due : ∀ i < n, Hold.one ≤ (take^[i] p).hold.phase
  done : (take^[n] p).hold.phase < Hold.one

theorem stopsAfter_zero_iff : StopsAfter p 0 ↔ p.hold.phase < Hold.one :=
  ⟨fun h => h.done, fun h => ⟨nofun, h⟩⟩

theorem stopsAfter_succ_iff :
    StopsAfter p (n + 1) ↔ Hold.one ≤ p.hold.phase ∧ StopsAfter p.take n := by
  constructor
  · intro h
    refine ⟨h.due 0 (Nat.succ_pos n), fun i hi => ?_, ?_⟩ <;>
      rw [← Function.iterate_succ_apply]
    · exact h.due (i + 1) (Nat.succ_lt_succ hi)
    · exact h.done
  · rintro ⟨hfirst, h⟩
    refine ⟨fun i hi => ?_, ?_⟩
    · cases i with
      | zero => exact hfirst
      | succ i =>
        rw [Function.iterate_succ_apply]
        exact h.due i (Nat.lt_of_succ_lt_succ hi)
    · rw [Function.iterate_succ_apply]
      exact h.done

/-- The loop has a result exactly if its takes come to an end, namely what they leave. -/
theorem catchUp?_eq_some_iff : p.catchUp? = some q ↔ ∃ n, StopsAfter p n ∧ q = take^[n] p := by
  constructor
  · refine catchUp?.partial_correctness (fun p q => ∃ n, StopsAfter p n ∧ q = take^[n] p) ?_ p q
    intro loop ih p q h
    split at h
    next hdue =>
      obtain ⟨n, hn, rfl⟩ := ih p.take q h
      exact ⟨n + 1, stopsAfter_succ_iff.2 ⟨hdue, hn⟩, (Function.iterate_succ_apply ..).symm⟩
    next hdone =>
      cases h
      exact ⟨0, stopsAfter_zero_iff.2 (Nat.lt_of_not_le hdone), rfl⟩
  · rintro ⟨n, hn, rfl⟩
    induction n generalizing p with
    | zero => exact catchUp?_of_done (stopsAfter_zero_iff.1 hn)
    | succ n ih =>
      obtain ⟨hdue, hn⟩ := stopsAfter_succ_iff.1 hn
      rw [catchUp?_of_due hdue, ih hn, Function.iterate_succ_apply]

theorem due_of_catchUp?_eq_none (h : p.catchUp? = none) : Hold.one ≤ p.hold.phase := by
  refine Nat.le_of_not_lt fun hdone => ?_
  cases h.symm.trans (catchUp?_of_done hdone)

/-- It has none exactly if after any number of takes another is due. -/
theorem catchUp?_eq_none_iff : p.catchUp? = none ↔ ∀ i, Hold.one ≤ (take^[i] p).hold.phase := by
  constructor
  · intro hnone i
    induction i generalizing p with
    | zero => exact due_of_catchUp?_eq_none hnone
    | succ i ih =>
      rw [catchUp?_of_due (due_of_catchUp?_eq_none hnone)] at hnone
      rw [Function.iterate_succ_apply]
      exact ih hnone
  · intro hdue
    rw [Option.eq_none_iff_forall_ne_some]
    intro q hq
    obtain ⟨n, hn, -⟩ := catchUp?_eq_some_iff.1 hq
    exact Nat.not_le.2 hn.done (hdue n)

/-! ### Calls that have a result -/

theorem single_take (p : Player) : Single p.take.hold.phase := by
  rw [hold_take]
  exact single_round _

theorem phase_take_or (hp : Single p.hold.phase) :
    p.take.hold.phase = p.hold.phase ∨ p.take.hold.phase ≤ p.hold.phase - Hold.one := by
  rw [hold_take, Hold.give, Hold.one_eq]
  exact round_sub_two_pow_or hp 42

/-- A take that leaves the phase as it was leaves another due, and so on. -/
theorem phase_iterate_take_of_stuck (h : p.take.hold.phase = p.hold.phase) (i : Nat) :
    (take^[i] p).hold.phase = p.hold.phase := by
  induction i with
  | zero => rfl
  | succ i ih =>
    rw [Function.iterate_succ_apply', hold_take, Hold.give, ih]
    exact h

/-- Takes come to an end only if each uses up a whole sample of the phase. -/
theorem StopsAfter.le (hp : Single p.hold.phase) (hn : StopsAfter p n) :
    n ≤ p.hold.phase / Hold.one := by
  induction n generalizing p with
  | zero => exact Nat.zero_le _
  | succ n ih =>
    have hstop := hn.done
    obtain ⟨hdue, hn⟩ := stopsAfter_succ_iff.1 hn
    rcases phase_take_or hp with hstuck | hless
    · rw [phase_iterate_take_of_stuck hstuck] at hstop
      exact absurd hdue (Nat.not_le.2 hstop)
    · rw [Nat.div_eq_sub_div Hold.one_pos hdue]
      exact Nat.succ_le_succ (Nat.le_trans (ih (single_take p) hn) (Nat.div_le_div_right hless))

/-- Takes samples while one is due, but no more than `fuel`. -/
def catchUpWithin : Nat → Player → Player
  | 0, p => p
  | fuel + 1, p => if Hold.one ≤ p.hold.phase then catchUpWithin fuel p.take else p

/-- What the takes of a call leave, as many as the phase holds whole samples at most. -/
def caughtUp (p : Player) : Player := catchUpWithin (p.hold.phase / Hold.one) p

/-- What a call gives. -/
def output (p : Player) : Sample := p.caughtUp.hold.current

/-- What a call leaves. -/
def advanced (p : Player) : Player := { p.caughtUp with hold := p.caughtUp.hold.advance }

theorem catchUpWithin_eq_iterate (hn : StopsAfter p n) {fuel : Nat} (hfuel : n ≤ fuel) :
    catchUpWithin fuel p = take^[n] p := by
  induction fuel generalizing p n with
  | zero =>
    rw [Nat.le_zero.1 hfuel]
    rfl
  | succ fuel ih =>
    cases n with
    | zero =>
      have hdone := stopsAfter_zero_iff.1 hn
      rw [catchUpWithin, if_neg (Nat.not_le.2 hdone), Function.iterate_zero_apply]
    | succ n =>
      obtain ⟨hdue, hn⟩ := stopsAfter_succ_iff.1 hn
      rw [catchUpWithin, if_pos hdue, ih hn (Nat.le_of_succ_le_succ hfuel),
        Function.iterate_succ_apply]

/-- If the takes for an output come to an end, they are no more than the phase holds. -/
theorem caughtUp_of_catchUp? (hp : Single p.hold.phase) (h : p.catchUp? = some q) :
    p.caughtUp = q ∧ q.hold.phase < Hold.one := by
  obtain ⟨n, hn, rfl⟩ := catchUp?_eq_some_iff.1 h
  exact ⟨catchUpWithin_eq_iterate hn (hn.le hp), hn.done⟩

theorem next?_eq_some (hp : Single p.hold.phase) (h : p.next? = some (s, q)) :
    s = p.output ∧ q = p.advanced ∧ p.caughtUp.hold.phase < Hold.one := by
  obtain ⟨r, hr, heq⟩ := Option.map_eq_some_iff.1 h
  obtain ⟨rfl, hdone⟩ := caughtUp_of_catchUp? hp hr
  cases heq
  exact ⟨rfl, rfl, hdone⟩

/-! ### Steady phases -/

theorem steady_iterate_take (hp : p.hold.Steady) (i : Nat) : (take^[i] p).hold.Steady := by
  induction i with
  | zero => exact hp
  | succ i ih =>
    rw [Function.iterate_succ_apply']
    exact steady_take ih

theorem phase_take (hp : p.hold.Steady) : p.take.hold.phase = p.hold.phase - Hold.one := by
  rw [hold_take, Hold.phase_give hp]

/-- Each take uses up one whole sample. -/
theorem phase_iterate_take (hp : p.hold.Steady) (i : Nat) :
    (take^[i] p).hold.phase = p.hold.phase - i * Hold.one := by
  induction i with
  | zero => rw [Function.iterate_zero_apply, Nat.zero_mul, Nat.sub_zero]
  | succ i ih =>
    rw [Function.iterate_succ_apply', phase_take (steady_iterate_take hp i), ih, Nat.succ_mul,
      Nat.sub_sub]

/-- As many samples are taken as the phase holds, and the last take leaves none. -/
theorem stopsAfter_of_steady (hp : p.hold.Steady) : StopsAfter p (p.hold.phase / Hold.one) where
  due i hi := by
    have hle : (i + 1) * Hold.one ≤ p.hold.phase := (Nat.le_div_iff_mul_le Hold.one_pos).1 hi
    rw [Nat.succ_mul] at hle
    rw [phase_iterate_take hp]
    omega
  done := by
    rw [phase_iterate_take hp, Nat.mul_comm, ← Nat.mod_eq_sub]
    exact Nat.mod_lt _ Hold.one_pos

theorem caughtUp_eq_iterate (hp : p.hold.Steady) :
    p.caughtUp = take^[p.hold.phase / Hold.one] p :=
  catchUpWithin_eq_iterate (stopsAfter_of_steady hp) (Nat.le_refl _)

theorem catchUp?_of_steady (hp : p.hold.Steady) : p.catchUp? = some p.caughtUp :=
  catchUp?_eq_some_iff.2 ⟨_, stopsAfter_of_steady hp, caughtUp_eq_iterate hp⟩

theorem next?_of_steady (hp : p.hold.Steady) : p.next? = some (p.output, p.advanced) := by
  rw [next?, catchUp?_of_steady hp]
  rfl

theorem phase_caughtUp (hp : p.hold.Steady) :
    p.caughtUp.hold.phase = p.hold.phase % Hold.one := by
  rw [caughtUp_eq_iterate hp, phase_iterate_take hp, Nat.mul_comm, ← Nat.mod_eq_sub]

theorem phase_caughtUp_lt (hp : p.hold.Steady) : p.caughtUp.hold.phase < Hold.one := by
  rw [phase_caughtUp hp]
  exact Nat.mod_lt _ Hold.one_pos

theorem step_iterate_take (p : Player) (i : Nat) : (take^[i] p).hold.step = p.hold.step := by
  induction i with
  | zero => rfl
  | succ i ih => rw [Function.iterate_succ_apply', hold_take, Hold.step_give, ih]

theorem step_caughtUp (hp : p.hold.Steady) : p.caughtUp.hold.step = p.hold.step := by
  rw [caughtUp_eq_iterate hp, step_iterate_take]

theorem steady_caughtUp (hp : p.hold.Steady) : p.caughtUp.hold.Steady := by
  rw [caughtUp_eq_iterate hp]
  exact steady_iterate_take hp _

theorem steady_advanced (hp : p.hold.Steady) : p.advanced.hold.Steady :=
  (steady_caughtUp hp).advance (phase_caughtUp_lt hp)

theorem step_advanced (hp : p.hold.Steady) : p.advanced.hold.step = p.hold.step :=
  step_caughtUp hp

/-! ### Calls -/

/-- What is held at a device's rate after any calls, each on any queue. -/
inductive Called (rate : Nat) : Hold → Prop where
  | start : Called rate (.ofRate rate)
  | next {h : Hold} {q : Queue} {s : Sample} {p : Player} (hh : Called rate h)
      (hnext : next? ⟨h, q⟩ = some (s, p)) : Called rate p.hold

section Called
variable {h : Hold} {rate : Nat} (hrate : 0 < rate)

include hrate

theorem Called.steady (hh : Called rate h) : h.Steady := by
  induction hh with
  | start => exact Hold.steady_ofRate hrate
  | @next h q s p _ hnext ih =>
    obtain ⟨-, rfl, -⟩ := next?_eq_some (p := ⟨h, q⟩) ih.single hnext
    exact steady_advanced (p := ⟨h, q⟩) ih

theorem Called.step (hh : Called rate h) : h.step = (Hold.ofRate rate).step := by
  induction hh with
  | start => rfl
  | @next h q s p hh hnext ih =>
    obtain ⟨-, rfl, -⟩ := next?_eq_some (p := ⟨h, q⟩) (hh.steady hrate).single hnext
    exact (step_advanced (p := ⟨h, q⟩) (hh.steady hrate)).trans ih

end Called

/-! ### Many calls -/

theorem nextMany_succ (hp : p.hold.Steady) (n : Nat) :
    nextMany (n + 1) p = (p.output :: (nextMany n p.advanced).1, (nextMany n p.advanced).2) := by
  rw [nextMany, next?_of_steady hp]

/-- What `n` calls give. -/
def outputs : Nat → Player → List Sample
  | 0, _ => []
  | n + 1, p => p.output :: outputs n p.advanced

theorem fst_nextMany (hp : p.hold.Steady) (n : Nat) : (nextMany n p).1 = outputs n p := by
  induction n generalizing p with
  | zero => rfl
  | succ n ih => rw [nextMany_succ hp, outputs, ih (steady_advanced hp)]

/-- Every call has an output. -/
theorem length_nextMany (hp : p.hold.Steady) (n : Nat) : (nextMany n p).1.length = n := by
  induction n generalizing p with
  | zero => rfl
  | succ n ih =>
    rw [nextMany_succ hp]
    exact congrArg Nat.succ (ih (steady_advanced hp))

end Player

end ByteByteJump.Audio
