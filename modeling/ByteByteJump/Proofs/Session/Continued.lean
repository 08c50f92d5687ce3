import ByteByteJump.Proofs.Session.Ending

/-! One run after another.

A run may be followed by another of the session that it leaves (`Continued`). What the
program shows in the two is compared with what it shows in one run: its outputs, with the
host's answers, and how it ends. -/
namespace ByteByteJump

/-- A picture or a sound is handed to the host. -/
def Call.isOutput : Call → Bool
  | .poll => false
  | .present _ => true
  | .play _ => true

/-- The outputs of the program with what the host answered. -/
def Account.outputs (a : Account) : List Exchange :=
  a.exchanges.filter fun x => x.call.isOutput

@[simp] theorem Account.outputs_append (a b : Account) :
    (a ++ b).outputs = a.outputs ++ b.outputs :=
  List.filter_append ..

theorem Account.outputs_congr {a b : Account} (h : a.exchanges = b.exchanges) :
    a.outputs = b.outputs := by
  rw [outputs, h, outputs]

theorem Account.filter_calls (a : Account) :
    (a.exchanges.map Exchange.call).filter Call.isOutput = a.outputs.map Exchange.call :=
  List.filter_map ..

namespace Session

variable {σ τ : Type}

/-- Ends of runs that show the same: the outputs with their answers, what the program is left
with, and the result. -/
structure SameToProgram (a : Account) (o : Outcome σ) (b : Account) (p : Outcome τ) : Prop where
  outputs : a.outputs = b.outputs
  calls : (calls o.events).filter Call.isOutput = (calls p.events).filter Call.isOutput
  standing : o.session.standing = p.session.standing
  result : o.result = p.result

/-- Ends of runs that differ in their log only. -/
structure SameButLog (a : Account) (o : Outcome σ) (b : Account) (p : Outcome σ) : Prop where
  account : a = b
  calls : calls o.events = calls p.events
  session : o.session = p.session
  result : o.result = p.result

/-- Whatever ends in one way ends in the other, with ends that `E` relates. -/
structure Matched (E : Account → Outcome σ → Account → Outcome τ → Prop)
    (X : Account → Outcome σ → Prop) (Y : Account → Outcome τ → Prop) : Prop where
  left : ∀ {a o}, X a o → ∃ b p, Y b p ∧ E a o b p
  right : ∀ {b p}, Y b p → ∃ a o, X a o ∧ E a o b p

/-- A run with account `a` and outcome `o` is followed by the run of a session. -/
def Continued (host : Host σ) (a : Account) (o : Outcome σ) (s : Session σ) (c : Account)
    (p : Outcome σ) : Prop :=
  ∃ d q, s.Runs host d q ∧ c = a ++ d ∧ p = q.after o.events

theorem Continued.calls {host : Host σ} {s : Session σ} {a c : Account} {o p : Outcome σ}
    (ho : calls o.events = a.exchanges.map Exchange.call) (h : Continued host a o s c p) :
    calls p.events = c.exchanges.map Exchange.call := by
  obtain ⟨d, q, hq, rfl, rfl⟩ := h
  simp only [Outcome.after, calls_append, ho, hq.takes.calls, Account.exchanges_append,
    List.map_append]

theorem SameToProgram.of_accounts {a b : Account} {o : Outcome σ} {p : Outcome τ}
    (ho : ByteByteJump.calls o.events = a.exchanges.map Exchange.call)
    (hp : ByteByteJump.calls p.events = b.exchanges.map Exchange.call)
    (houtputs : a.outputs = b.outputs) (hstanding : o.session.standing = p.session.standing)
    (hresult : o.result = p.result) : SameToProgram a o b p where
  outputs := houtputs
  calls := by rw [ho, hp, Account.filter_calls, Account.filter_calls, houtputs]
  standing := hstanding
  result := hresult

end Session

end ByteByteJump
