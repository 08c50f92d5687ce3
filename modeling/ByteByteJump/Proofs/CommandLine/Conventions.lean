import Mathlib.Data.List.Forall2
import ByteByteJump.CommandLine.Declaration

/-! What a parser owes to a declaration.

A parser is told what is declared and is given arguments. The usual conventions say how
parameters are written: by name with a value behind it or after an equals sign, by name
alone, by letters in a row, or by their place. `Line` is that grammar, for any declaration. It
takes a list of arguments apart into occurrences of parameters, one after the other.

Not every list of occurrences is admitted (`Admissible`). Of one that is, a parser that keeps
to the conventions finds the values, the defaults, the switches and the counts
(`Conventions`). Each of these is about one parameter, and of the order of the occurrences
none says anything. -/
namespace ByteByteJump.CommandLine

/-! ### What is written -/

/-- An argument that names a parameter. -/
def Argument.long (name : Argument) : Argument := dash :: dash :: name

/-- Nothing that starts so is an option. -/
def Argument.Undashed (w : Argument) : Prop := w.head? ≠ some dash

instance (w : Argument) : Decidable w.Undashed := inferInstanceAs (Decidable (w.head? ≠ _))

/-- Met without a value, and reading goes on. -/
def Parameter.IsFlag (p : Parameter) : Prop := p.action = .switch ∨ p.action = .count

theorem Parameter.IsFlag.action_ne {p : Parameter} (h : p.IsFlag) : p.action ≠ .set := by
  obtain heq | heq := h
  all_goals rw [heq]; decide

/-- A letter stands for a flag that is declared. -/
structure Lettered (c : Command) (p : Parameter) (letter : UInt8) : Prop where
  mem : p ∈ c
  isFlag : p.IsFlag
  letter : p.letter? = some letter

/-- Arguments that spell occurrences of declared parameters. -/
inductive Line (c : Command) : List Argument → List Occurrence → Prop where
  | nil : Line c [] []
  /-- The name, and the value as the next argument. -/
  | apart {p : Parameter} {name w : Argument} {arguments : List Argument}
      {given : List Occurrence} (hp : p ∈ c) (haction : p.action = .set)
      (hname : p.name? = some name) (hw : w.Undashed) (rest : Line c arguments given) :
      Line c (name.long :: w :: arguments) (⟨p.id, some w⟩ :: given)
  /-- The name and the value with an equals sign between. -/
  | joined {p : Parameter} {name w : Argument} {arguments : List Argument}
      {given : List Occurrence} (hp : p ∈ c) (haction : p.action = .set)
      (hname : p.name? = some name) (rest : Line c arguments given) :
      Line c ((name ++ Argument.equals :: w).long :: arguments) (⟨p.id, some w⟩ :: given)
  /-- The name of a flag. -/
  | flag {p : Parameter} {name : Argument} {arguments : List Argument}
      {given : List Occurrence} (hp : p ∈ c) (hflag : p.IsFlag)
      (hname : p.name? = some name) (rest : Line c arguments given) :
      Line c (name.long :: arguments) (⟨p.id, none⟩ :: given)
  /-- A dash and the letters of flags. -/
  | cluster {ps : List Parameter} {letters : Argument} {arguments : List Argument}
      {given : List Occurrence} (hne : ps ≠ []) (hps : List.Forall₂ (Lettered c) ps letters)
      (rest : Line c arguments given) :
      Line c ((Argument.dash :: letters) :: arguments) (ps.map (⟨·.id, none⟩) ++ given)
  /-- A value for the one parameter that has no name. -/
  | positional {p : Parameter} {w : Argument} {arguments : List Argument}
      {given : List Occurrence} (hp : c.filter (·.isPositional) = [p])
      (haction : p.action = .set) (hw : w.Undashed) (rest : Line c arguments given) :
      Line c (w :: arguments) (⟨p.id, some w⟩ :: given)

/-- Occurrences as a declaration admits them. -/
structure Admissible (c : Command) (given : List Occurrence) : Prop where
  /-- No value is refused. -/
  taken : ∀ p ∈ c, ∀ w, ⟨p.id, some w⟩ ∈ given → p.refuses w = none
  /-- Only what is counted occurs again. -/
  once : ∀ p ∈ c, p.action ≠ .count → given.countP (·.id = p.id) ≤ 1
  /-- Nothing required is missing. -/
  required : ∀ p ∈ c, p.required → ∃ o ∈ given, o.id = p.id

/-! ### What is found -/

/-- A parser finds matches in a line that is as declared. -/
structure Finds (c : Command) (parse : List Argument → Except Ending Matches)
    (arguments : List Argument) (given : List Occurrence) (m : Matches) : Prop where
  line : Line c arguments given
  admissible : Admissible c given
  parsed : parse arguments = .ok m

section

variable (c : Command) (parse : List Argument → Except Ending Matches)

/-- A parser keeps to the conventions. -/
structure Conventions : Prop where
  /-- What is as declared is accepted. -/
  accepted : ∀ {arguments given}, Line c arguments given → Admissible c given →
    ∃ m, parse arguments = .ok m
  /-- A value that was given is found. -/
  value : ∀ {arguments given m}, Finds c parse arguments given m →
    ∀ p ∈ c, p.action = .set → ∀ w, ⟨p.id, some w⟩ ∈ given → m.value? p.id = some w
  /-- If none was given there is the default, or nothing. -/
  default : ∀ {arguments given m}, Finds c parse arguments given m →
    ∀ p ∈ c, p.action = .set → (∀ o ∈ given, o.id ≠ p.id) →
      m.value? p.id = p.default?.map .ofText
  /-- A switch is on if it was met. -/
  switch : ∀ {arguments given m}, Finds c parse arguments given m →
    ∀ p ∈ c, p.action = .switch → (m.isOn p.id = true ↔ ∃ o ∈ given, o.id = p.id)
  /-- What is counted is counted up to the most that a byte holds. -/
  count : ∀ {arguments given m}, Finds c parse arguments given m →
    ∀ p ∈ c, p.action = .count →
      m.count p.id = min mostCounted (given.countP (·.id = p.id))

end

end ByteByteJump.CommandLine
