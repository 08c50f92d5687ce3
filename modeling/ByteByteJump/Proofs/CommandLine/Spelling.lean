import Mathlib.Algebra.BigOperators.Group.List.Basic
import Mathlib.Algebra.Ring.Nat
import ByteByteJump.Proofs.CommandLine.Conventions

/-! Ways to spell a choice.

The same options can be chosen in many ways: in any order, a value after an equals sign or
as an argument of its own, a default given or left out, a number with zeros in front, and
logging asked for by name, letter by letter or many letters in a row.

A command line is written here as a list of items, each with what it chooses and how it is
spelled. `Spells` says which lists choose given options, by what the items give and not by
where they stand (`Spells.perm`). No parser has a part in this. -/
namespace ByteByteJump.CommandLine

/-! ### Numbers -/

/-- A number in decimal, perhaps with zeros in front. -/
structure Decimal where
  digits : List Char
  ne_nil : digits ≠ []
  all_isDigit : digits.all Char.isDigit
deriving DecidableEq

namespace Decimal

def value (n : Decimal) : ℕ := Nat.ofDigitChars 10 n.digits 0

def text (n : Decimal) : String := String.ofList n.digits

/-- A number without zeros in front. -/
def ofNat (n : ℕ) : Decimal where
  digits := Nat.toDigits 10 n
  ne_nil := Nat.toDigits_ne_nil
  all_isDigit := List.all_eq_true.2 fun _ => Nat.isDigit_of_mem_toDigits (by decide) (by decide)

@[simp] theorem value_ofNat (n : ℕ) : (ofNat n).value = n :=
  Nat.ofDigitChars_toDigits (by decide) (by decide)

theorem head?_digits {c : Char} (hc : c.isDigit = false) (n : Decimal) :
    n.digits.head? ≠ some c := by
  intro hhead
  have hdigit := List.all_eq_true.1 n.all_isDigit c (List.mem_of_head? hhead)
  rw [hc] at hdigit
  exact Bool.false_ne_true hdigit

end Decimal

/-! ### Items -/

/-- A part of a command line that chooses one thing, as it is spelled. -/
inductive Item where
  | program (path : Argument)
  | scale (v : Scale) (joined : Bool)
  | pacing (v : Pacing) (joined : Bool)
  | frames (n : Decimal) (joined : Bool)
  | mute
  | verbose
  /-- A dash and `more + 1` letters. -/
  | cluster (more : ℕ)
deriving DecidableEq

/-- The arguments that give an option a value, joined by an equals sign or apart. -/
def valued (name value : String) (joined : Bool) : List Argument :=
  if joined then [.ofText ("--" ++ name ++ "=" ++ value)]
  else [.ofText ("--" ++ name), .ofText value]

namespace Item

def arguments : Item → List Argument
  | program path => [path]
  | scale v joined => valued "scale" v.word joined
  | pacing v joined => valued "pacing" v.word joined
  | frames n joined => valued "frames" n.text joined
  | mute => [.ofText "--mute"]
  | verbose => [.ofText "--verbose"]
  | cluster more => [.ofText (String.ofList ('-' :: List.replicate (more + 1) 'v'))]

/-! What an item gives for each thing there is to choose. -/

def program? : Item → Option Argument
  | program path => some path
  | _ => none

def scale? : Item → Option Scale
  | scale v _ => some v
  | _ => none

def pacing? : Item → Option Pacing
  | pacing v _ => some v
  | _ => none

def frames? : Item → Option Decimal
  | frames n _ => some n
  | _ => none

/-- How often an item turns the sound off. -/
def mutes : Item → ℕ
  | mute => 1
  | _ => 0

/-- How often an item asks for logging. -/
def flags : Item → ℕ
  | verbose => 1
  | cluster more => more + 1
  | _ => 0

end Item

/-! ### Choices -/

/-- Options that can be written: a program that no option is taken for, and a number of
frames of 64 bits. -/
structure Options.Writable (o : Options Argument) : Prop where
  program_ne : o.program ≠ []
  undashed : o.program.Undashed
  frames_lt : ∀ n ∈ o.frames, n < UInt64.size

section

variable {α : Type} {value default : α} {given : List α}

/-- A value is given once, or not at all if it is the default. -/
def Gives (value default : α) (given : List α) : Prop :=
  given = [value] ∨ given = [] ∧ value = default

theorem Gives.perm {others : List α} (h : Gives value default given) (hp : given.Perm others) :
    Gives value default others := by
  obtain rfl | ⟨rfl, heq⟩ := h
  · exact .inl (List.singleton_perm.1 hp).symm
  · exact .inr ⟨List.nil_perm.1 hp, heq⟩

end

/-- A list of items chooses options: each thing is given as often as it should be. The
count of `o.verbose` is what is asked for, however large. -/
structure Spells (o : Options Argument) (items : List Item) : Prop where
  program : items.filterMap Item.program? = [o.program]
  scale : Gives o.scale Options.defaultScale (items.filterMap Item.scale?)
  pacing : Gives o.pacing Options.defaultPacing (items.filterMap Item.pacing?)
  frames : (items.filterMap Item.frames?).map Decimal.value = o.frames.toList
  mute : (items.map Item.mutes).sum = o.mute.toNat
  verbose : (items.map Item.flags).sum = o.verbose

/-- The order of the items does not matter to what they choose. -/
theorem Spells.perm {o : Options Argument} {items others : List Item} (h : Spells o items)
    (hp : items.Perm others) : Spells o others where
  program := by
    have hprogram := hp.filterMap Item.program?
    rw [h.program] at hprogram
    exact (List.singleton_perm.1 hprogram).symm
  scale := h.scale.perm (hp.filterMap Item.scale?)
  pacing := h.pacing.perm (hp.filterMap Item.pacing?)
  frames := by
    have hframes := (hp.filterMap Item.frames?).map Decimal.value
    rw [h.frames] at hframes
    cases hn : o.frames with
    | none =>
      rw [hn] at hframes
      exact List.nil_perm.1 hframes
    | some n =>
      rw [hn] at hframes
      exact (List.singleton_perm.1 hframes).symm
  mute := by rw [← (hp.map Item.mutes).sum_eq, h.mute]
  verbose := by rw [← (hp.map Item.flags).sum_eq, h.verbose]

/-- Options written out in full, nothing left to a default. -/
def Options.items (o : Options Argument) : List Item :=
  [.program o.program, .scale o.scale true, .pacing o.pacing true] ++
    (match o.frames with
      | none => []
      | some n => [.frames (.ofNat n) true]) ++
    (if o.mute then [.mute] else []) ++
    match o.verbose with
      | 0 => []
      | more + 1 => [.cluster more]

/-- Any options have a spelling. -/
theorem spells_items (o : Options Argument) : Spells o o.items := by
  obtain ⟨program, scale, pacing, mute, frames, verbose⟩ := o
  cases mute <;> cases frames <;> cases verbose
  all_goals refine ⟨rfl, .inl rfl, .inl rfl, ?_, rfl, ?_⟩
  all_goals simp [Options.items, List.filterMap_cons, Item.frames?, Item.flags]

end ByteByteJump.CommandLine
