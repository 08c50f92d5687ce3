import ByteByteJump.Machine.Run

/-! Instructions one after the other, and nothing counted.

`after n` is the machine that `n` instructions leave, or the fault of the first
that cannot be executed: the plain iterate of `step`. A counted run of at most
`n` instructions (`steps`) ends where the iterate does: after all of them
(`steps_of_after`) or at the first that fails (`steps_of_fault`), and there is
no third way (`after_or_fault`). What every instruction keeps, any number of
them keeps (`after_keeps`). -/
namespace ByteByteJump.Machine

/-- The machine after `n` instructions, or the fault of the first that fails. -/
def after : Nat → Machine → Except Fault Machine
  | 0, m => .ok m
  | n + 1, m =>
    match m.step with
    | .error f => .error f
    | .ok next => after n next

@[simp] theorem after_zero (m : Machine) : after 0 m = .ok m := rfl

theorem after_succ_of_ok {m next : Machine} (n : Nat) (h : m.step = .ok next) :
    after (n + 1) m = after n next := by
  rw [after, h]

theorem after_succ_of_error {m : Machine} {f : Fault} (n : Nat) (h : m.step = .error f) :
    after (n + 1) m = .error f := by
  rw [after, h]

/-- A run that goes well starts with an instruction that does. -/
theorem after_succ_eq_ok_iff {m last : Machine} {n : Nat} :
    after (n + 1) m = .ok last ↔ ∃ next, m.step = .ok next ∧ after n next = .ok last := by
  cases h : m.step with
  | error f => simp [after_succ_of_error n h]
  | ok next => simp [after_succ_of_ok n h]

/-- A run that goes well ends with an instruction that does. -/
theorem after_succ_eq_ok_iff_last {m last : Machine} {n : Nat} :
    after (n + 1) m = .ok last ↔ ∃ prior, after n m = .ok prior ∧ prior.step = .ok last := by
  induction n generalizing m with
  | zero =>
    rw [after_succ_eq_ok_iff]
    simp
  | succ n ih =>
    rw [after_succ_eq_ok_iff]
    constructor
    · rintro ⟨next, hnext, hlast⟩
      obtain ⟨prior, hprior, hstep⟩ := ih.1 hlast
      exact ⟨prior, after_succ_eq_ok_iff.2 ⟨next, hnext, hprior⟩, hstep⟩
    · rintro ⟨prior, hprior, hstep⟩
      obtain ⟨next, hnext, hprior⟩ := after_succ_eq_ok_iff.1 hprior
      exact ⟨next, hnext, ih.2 ⟨prior, hprior, hstep⟩⟩

/-- What one instruction keeps, any number of them keeps. -/
theorem after_keeps {P : Machine → Prop} (hstep : ∀ m next, P m → m.step = .ok next → P next)
    {n : Nat} {m last : Machine} (h : after n m = .ok last) (hm : P m) : P last := by
  induction n generalizing m with
  | zero =>
    cases h
    exact hm
  | succ n ih =>
    obtain ⟨next, hnext, hlast⟩ := after_succ_eq_ok_iff.1 h
    exact ih hlast (hstep m next hm hnext)

theorem size_of_step {m next : Machine} (h : m.step = .ok next) :
    next.memory.size = m.memory.size := by
  obtain ⟨i, _, rfl⟩ := step_eq_ok_iff.1 h
  simp

theorem size_of_after {n : Nat} {m last : Machine} (h : after n m = .ok last) :
    last.memory.size = m.memory.size :=
  after_keeps (P := fun x => x.memory.size = m.memory.size)
    (fun _ _ hx hstep => (size_of_step hstep).trans hx) h rfl

/-! ### Counted runs -/

/-- Either `n` instructions go well, or one of them is the first to fail. -/
theorem after_or_fault (n : Nat) (m : Machine) :
    (∃ last, after n m = .ok last) ∨
      ∃ k prior f, k < n ∧ after k m = .ok prior ∧ prior.step = .error f := by
  induction n generalizing m with
  | zero => exact .inl ⟨m, rfl⟩
  | succ n ih =>
    cases h : m.step with
    | error f => exact .inr ⟨0, m, f, Nat.succ_pos n, rfl, h⟩
    | ok next =>
      rcases ih next with ⟨last, hlast⟩ | ⟨k, prior, f, hk, hprior, hf⟩
      · exact .inl ⟨last, (after_succ_of_ok n h).trans hlast⟩
      · exact .inr ⟨k + 1, prior, f, Nat.succ_lt_succ hk, (after_succ_of_ok k h).trans hprior, hf⟩

theorem steps_of_after {n : Nat} {m last : Machine} (h : after n m = .ok last) :
    steps n m = ⟨last, n, none⟩ := by
  induction n generalizing m with
  | zero =>
    cases h
    rfl
  | succ n ih =>
    obtain ⟨next, hnext, hlast⟩ := after_succ_eq_ok_iff.1 h
    rw [steps_succ_of_ok n hnext, ih hlast]

theorem steps_of_fault {k n : Nat} {m prior : Machine} {f : Fault} (hk : k < n)
    (h : after k m = .ok prior) (hf : prior.step = .error f) :
    steps n m = ⟨prior, k, some (.failed f)⟩ := by
  induction k generalizing n m with
  | zero =>
    cases h
    obtain ⟨n, rfl⟩ := Nat.exists_eq_succ_of_ne_zero (Nat.ne_of_gt hk)
    exact steps_succ_of_error n hf
  | succ k ih =>
    obtain ⟨n, rfl⟩ := Nat.exists_eq_succ_of_ne_zero (Nat.ne_of_gt (Nat.zero_lt_of_lt hk))
    obtain ⟨next, hnext, hprior⟩ := after_succ_eq_ok_iff.1 h
    rw [steps_succ_of_ok n hnext, ih (Nat.lt_of_succ_lt_succ hk) hprior]

end ByteByteJump.Machine
