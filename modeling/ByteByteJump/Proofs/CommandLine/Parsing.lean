import Mathlib.Data.List.Pairwise
import Mathlib.Data.List.TakeWhile
import ByteByteJump.CommandLine.Reader
import ByteByteJump.Proofs.CommandLine.Conventions

/-! The parser that comes with the program keeps to the conventions.

It does so for every declaration whose parameters can be told apart
(`Command.WellFormed`). Each kind of argument is told by its first bytes
(`Token.ofArgument_undashed` and after it), so that no value is taken for an option. What is
met is settled late; what a reader has met is the list it comes to once what is pending is
settled (`Reader.Stands`). To that list each constructor of a line adds its occurrences, which
are admitted because the whole line's are (`Reader.gets_line`). -/
namespace ByteByteJump.CommandLine

/-! ### Parameters that can be told apart -/

namespace Command

variable {α : Type} {c : Command} {f : Parameter → Option α} {p q : Parameter} {a : α}

/-- What two parameters have in common, neither has. -/
def Unshared (f : Parameter → Option α) (c : Command) : Prop :=
  c.Pairwise fun p q => f p = f q → f p = none

instance [DecidableEq α] : Decidable (c.Unshared f) :=
  inferInstanceAs (Decidable (c.Pairwise fun p q => f p = f q → f p = none))

theorem Unshared.eq (h : c.Unshared f) (hp : p ∈ c) (hq : q ∈ c) (hfp : f p = some a)
    (hfq : f q = some a) : q = p := by
  by_contra hne
  have hsymm : Std.Symm fun p q => f p = f q → f p = none :=
    ⟨fun _ _ h heq => heq.trans (h heq.symm)⟩
  have hnone := List.Pairwise.forall h hq hp hne (hfq.trans hfp.symm)
  cases hfq.symm.trans hnone

/-- Every command is to be declared so. -/
structure WellFormed (c : Command) : Prop where
  ids : c.Unshared fun p => some p.id
  names : c.Unshared Parameter.name?
  letters : c.Unshared Parameter.letter?
  /-- A name can be told from a value joined to it, and from a bare `--`. -/
  plain : ∀ p ∈ c, ∀ name ∈ p.name?, name ≠ [] ∧ Argument.equals ∉ name
  undashed : ∀ p ∈ c, p.letter? ≠ some Argument.dash

/-- What passes a test that no other parameter passes is found by it. -/
theorem find?_eq {test : Parameter → Bool} (hp : p ∈ c) (htest : test p = true)
    (hunique : ∀ q ∈ c, test q = true → q = p) : c.find? test = some p := by
  cases hfind : c.find? test with
  | none => exact absurd htest (List.find?_eq_none.1 hfind p hp)
  | some q => rw [hunique q (List.mem_of_find?_eq_some hfind) (List.find?_some hfind)]

variable {name : Argument} {letter : UInt8}

theorem WellFormed.named? (hc : c.WellFormed) (hp : p ∈ c) (hname : p.name? = some name) :
    c.named? name = some p :=
  find?_eq hp (decide_eq_true hname) fun _ hq htest =>
    hc.names.eq hp hq hname (of_decide_eq_true htest)

theorem WellFormed.lettered? (hc : c.WellFormed) (h : Lettered c p letter) :
    c.lettered? letter = some p :=
  find?_eq h.mem (decide_eq_true ⟨h.letter, h.isFlag.action_ne⟩) fun _ hq htest =>
    hc.letters.eq h.mem hq h.letter (of_decide_eq_true htest).1

theorem WellFormed.find?_id (hc : c.WellFormed) (hp : p ∈ c) :
    c.find? (·.id = p.id) = some p :=
  find?_eq hp (decide_eq_true rfl) fun _ hq htest =>
    hc.ids.eq hp hq rfl (congrArg some (of_decide_eq_true htest))

end Command

/-! ### Arguments by their form -/

namespace Token

variable {w name letters : Argument}

theorem ofArgument_undashed (h : w.Undashed) : ofArgument w = .plain := by
  unfold ofArgument
  split
  · next first _ _ =>
    have hfirst : first ≠ Argument.dash := fun heq => h (congrArg some heq)
    rw [if_pos hfirst]
  · rfl

theorem ofArgument_long (h : name ≠ []) : ofArgument name.long = ofLong name := by
  simp [ofArgument, Argument.long, h]

theorem ofArgument_letters (hne : letters ≠ []) (h : letters.Undashed) :
    ofArgument (Argument.dash :: letters) = .short letters := by
  obtain ⟨letter, rest, rfl⟩ := List.exists_cons_of_ne_nil hne
  have hletter : letter ≠ Argument.dash := fun heq => h (congrArg some heq)
  simp [ofArgument, hletter]

theorem ofLong_name (h : Argument.equals ∉ name) : ofLong name = .long name none := by
  have hdrop : name.dropWhile (· ≠ Argument.equals) = [] :=
    List.dropWhile_eq_nil_iff.2 fun b hb => decide_eq_true fun heq => h (heq ▸ hb)
  rw [ofLong, hdrop]

theorem ofLong_joined (h : Argument.equals ∉ name) (w : Argument) :
    ofLong (name ++ Argument.equals :: w) = .long name (some w) := by
  have hname : ∀ b ∈ name, decide (b ≠ Argument.equals) = true :=
    fun b hb => decide_eq_true fun heq => h (heq ▸ hb)
  rw [ofLong, List.dropWhile_append_of_pos hname, List.takeWhile_append_of_pos hname]
  simp

end Token

/-! ### Meeting one parameter -/

namespace Parameter

variable {c : Command} {p : Parameter} {given rest : List Occurrence} {value? : Option Argument}

/-- What may not occur again was not met before. -/
theorem any_eq_false (hp : p ∈ c) (haction : p.action ≠ .count)
    (h : Admissible c (given ++ ⟨p.id, value?⟩ :: rest)) :
    given.any (·.id = p.id) = false := by
  have honce := h.once p hp haction
  have hself : decide (p.id = p.id) = true := decide_eq_true rfl
  rw [List.countP_append, List.countP_cons, if_pos hself] at honce
  have hzero : given.countP (·.id = p.id) = 0 := by omega
  exact List.any_eq_false.2 (List.countP_eq_zero.1 hzero)

/-- What the whole line may hold is added. -/
theorem add_eq (hp : p ∈ c) (h : Admissible c (given ++ ⟨p.id, value?⟩ :: rest)) :
    p.add value? given = .ok (given ++ [⟨p.id, value?⟩]) := by
  have hfirst : ¬(p.action ≠ .count ∧ given.any (·.id = p.id)) :=
    fun ⟨haction, hany⟩ => Bool.false_ne_true ((any_eq_false hp haction h).symm.trans hany)
  have htaken : value?.bind p.refuses = none := by
    cases value? with
    | none => rfl
    | some w => exact h.taken p hp w (List.mem_append_right _ List.mem_cons_self)
  rw [add, if_neg hfirst, htaken]

theorem eq_of_add {given' : List Occurrence} (h : p.add value? given = .ok given') :
    given' = given ++ [⟨p.id, value?⟩] := by
  unfold add at h
  split at h
  · cases h
  · split at h
    · cases h
    · exact (Except.ok.inj h).symm

theorem IsFlag.meet_eq (h : p.IsFlag) (byName : Bool) : p.meet byName given = p.add none given := by
  unfold meet
  obtain heq | heq := h
  all_goals rw [heq]

end Parameter

/-! ### Reading one argument -/

namespace Reader

variable {c : Command} {r : Reader} {p : Parameter} {name w : Argument}
variable {given given' rest : List Occurrence}

/-- A reader is not in the middle of a parameter, and has met these. -/
structure Stands (r : Reader) (given : List Occurrence) : Prop where
  settled : r.settled = .ok given
  trailing : r.trailing = false

/-- Arguments are read, and the reader has then met these. -/
def Gets (c : Command) (r : Reader) (arguments : List Argument) (given : List Occurrence) :
    Prop :=
  ∃ r', arguments.foldlM (readArgument c) r = .ok r' ∧ r'.Stands given

theorem Gets.append {first second : List Argument} (h : Gets c r first given)
    (hnext : ∀ r' : Reader, r'.Stands given → Gets c r' second given') :
    Gets c r (first ++ second) given' := by
  obtain ⟨r', hfirst, hr'⟩ := h
  obtain ⟨r'', hsecond, hr''⟩ := hnext r' hr'
  refine ⟨r'', ?_, hr''⟩
  rw [List.foldlM_append, hfirst]
  exact hsecond

theorem gets_nil (h : r.Stands given) : Gets c r [] given := ⟨r, rfl, h⟩

theorem Gets.cons {r' : Reader} {arguments : List Argument} (h : r.readArgument c w = .ok r')
    (hrest : Gets c r' arguments given) : Gets c r (w :: arguments) given := by
  obtain ⟨r'', hread, hr''⟩ := hrest
  refine ⟨r'', ?_, hr''⟩
  rw [List.foldlM_cons, h]
  exact hread

theorem stands_start : start.Stands [] := ⟨rfl, rfl⟩

theorem wait_eq (h : r.settled = .ok given) (pending : Pending) :
    r.wait pending = .ok ⟨given, pending, r.trailing⟩ := by
  rw [wait, h]
  rfl

/-- What is pending is settled before anything else is met. -/
theorem Stands.applied (h : r.Stands given)
    {f : List Occurrence → Except Ending (List Occurrence)} (hf : f given = .ok given') :
    ∃ r', r.apply f = .ok r' ∧ r'.Stands given' := by
  refine ⟨⟨given', .nothing, r.trailing⟩, ?_, rfl, h.trailing⟩
  rw [apply, h.settled]
  show (do return { r with given := ← f given, pending := .nothing }) = _
  rw [hf]
  rfl

theorem Stands.readArgument_eq (h : r.Stands given) (w : Argument) :
    r.readArgument c w = match Token.ofArgument w with
      | .separator => .ok { r with trailing := true }
      | .long name value? => r.readLong c name value?
      | .short letters => letters.foldlM (readLetter c) r
      | .plain => r.readPlain c w := by
  rw [readArgument, h.trailing]
  rfl

/-- Nothing waits for a value in a reader that can be settled. -/
theorem Stands.readPlain_eq (h : r.Stands given) (w : Argument) :
    r.readPlain c w = r.readPositional c w := by
  have hsettled := h.settled
  unfold readPlain
  split
  · next hawaiting =>
    rw [Reader.settled, hawaiting] at hsettled
    cases hsettled
  · rfl

/-- What is pending counts as met. -/
theorem Stands.hasMet_eq (h : r.Stands given) (p : Parameter) :
    r.hasMet p = given.any (·.id = p.id) := by
  have hsettled := h.settled
  unfold Reader.settled at hsettled
  unfold hasMet
  split at hsettled
  · next hpending =>
    cases hsettled
    rw [hpending, Bool.or_false]
  · cases hsettled
  · next q w hpending =>
    rw [Parameter.eq_of_add hsettled, hpending]
    simp

/-- A value by itself is read as one because its parameter waits for it. -/
theorem Stands.apart (h : r.Stands given) (hc : c.WellFormed) (hp : p ∈ c)
    (haction : p.action = .set) (hname : p.name? = some name) (hw : w.Undashed)
    (hrest : Admissible c (given ++ ⟨p.id, some w⟩ :: rest)) :
    Gets c r [name.long, w] (given ++ [⟨p.id, some w⟩]) := by
  obtain ⟨hne, hequals⟩ := hc.plain p hp name hname
  have hlong : r.readArgument c name.long = .ok ⟨given, .awaiting p, r.trailing⟩ := by
    rw [h.readArgument_eq, Token.ofArgument_long hne, Token.ofLong_name hequals]
    simp only [readLong, hc.named? hp hname, haction]
    exact wait_eq h.settled _
  have hvalue : readArgument c ⟨given, .awaiting p, r.trailing⟩ w =
      .ok ⟨given, .value p w, r.trailing⟩ := by
    rw [readArgument, h.trailing, Token.ofArgument_undashed hw]
    rfl
  exact .cons hlong (.cons hvalue (gets_nil ⟨Parameter.add_eq hp hrest, h.trailing⟩))

theorem Stands.joined (h : r.Stands given) (hc : c.WellFormed) (hp : p ∈ c)
    (haction : p.action = .set) (hname : p.name? = some name)
    (hrest : Admissible c (given ++ ⟨p.id, some w⟩ :: rest)) :
    Gets c r [(name ++ Argument.equals :: w).long] (given ++ [⟨p.id, some w⟩]) := by
  obtain ⟨-, hequals⟩ := hc.plain p hp name hname
  obtain ⟨r', hread, hr'⟩ := h.applied (Parameter.add_eq hp hrest)
  refine Gets.cons ?_ (gets_nil hr')
  rw [h.readArgument_eq, Token.ofArgument_long (by simp), Token.ofLong_joined hequals]
  simp only [readLong, hc.named? hp hname, haction]
  exact hread

theorem Stands.flag (h : r.Stands given) (hc : c.WellFormed) (hp : p ∈ c) (hflag : p.IsFlag)
    (hname : p.name? = some name) (hrest : Admissible c (given ++ ⟨p.id, none⟩ :: rest)) :
    Gets c r [name.long] (given ++ [⟨p.id, none⟩]) := by
  obtain ⟨hne, hequals⟩ := hc.plain p hp name hname
  obtain ⟨r', hread, hr'⟩ := h.applied ((hflag.meet_eq true).trans (Parameter.add_eq hp hrest))
  refine Gets.cons ?_ (gets_nil hr')
  rw [h.readArgument_eq, Token.ofArgument_long hne, Token.ofLong_name hequals]
  simp only [readLong, hc.named? hp hname]
  obtain heq | heq := hflag
  all_goals rw [heq]; exact hread

theorem Stands.letter {letter : UInt8} (h : r.Stands given) (hc : c.WellFormed)
    (hletter : Lettered c p letter) (hrest : Admissible c (given ++ ⟨p.id, none⟩ :: rest)) :
    ∃ r', r.readLetter c letter = .ok r' ∧ r'.Stands (given ++ [⟨p.id, none⟩]) := by
  have hadd := Parameter.add_eq hletter.mem hrest
  simp only [readLetter, hc.lettered? hletter]
  exact h.applied ((hletter.isFlag.meet_eq false).trans hadd)

/-- Letters in a row are read one by one. -/
theorem Stands.letters {ps : List Parameter} {letters : Argument} (hc : c.WellFormed)
    (hps : List.Forall₂ (Lettered c) ps letters) (h : r.Stands given)
    (hrest : Admissible c (given ++ (ps.map (⟨·.id, none⟩) ++ rest))) :
    ∃ r', letters.foldlM (readLetter c) r = .ok r' ∧
      r'.Stands (given ++ ps.map (⟨·.id, none⟩)) := by
  induction hps generalizing r given with
  | nil => exact ⟨r, rfl, by rwa [List.map_nil, List.append_nil]⟩
  | cons hletter _ ih =>
    rw [List.map_cons] at hrest ⊢
    obtain ⟨r', hread, hr'⟩ := h.letter hc hletter hrest
    rw [List.cons_append, List.append_cons] at hrest
    obtain ⟨r'', hreads, hr''⟩ := ih hr' hrest
    refine ⟨r'', ?_, by rwa [List.append_cons]⟩
    rw [List.foldlM_cons, hread]
    exact hreads

theorem Stands.cluster {ps : List Parameter} {letters : Argument} (h : r.Stands given)
    (hc : c.WellFormed) (hne : ps ≠ []) (hps : List.Forall₂ (Lettered c) ps letters)
    (hrest : Admissible c (given ++ (ps.map (⟨·.id, none⟩) ++ rest))) :
    Gets c r [Argument.dash :: letters] (given ++ ps.map (⟨·.id, none⟩)) := by
  obtain ⟨r', hread, hr'⟩ := Stands.letters hc hps h hrest
  have htoken : Token.ofArgument (Argument.dash :: letters) = .short letters := by
    cases hps with
    | nil => exact absurd rfl hne
    | @cons p letter _ _ hletter _ =>
      refine Token.ofArgument_letters (List.cons_ne_nil _ _) fun heq => ?_
      exact hc.undashed p hletter.mem (hletter.letter.trans heq)
  refine Gets.cons ?_ (gets_nil hr')
  rw [h.readArgument_eq, htoken]
  exact hread

theorem Stands.positional (h : r.Stands given) (hp : c.filter (·.isPositional) = [p])
    (haction : p.action = .set) (hw : w.Undashed)
    (hrest : Admissible c (given ++ ⟨p.id, some w⟩ :: rest)) :
    Gets c r [w] (given ++ [⟨p.id, some w⟩]) := by
  have hmem : p ∈ c := List.mem_of_mem_filter (hp ▸ List.mem_singleton_self p)
  have hfind : c.find? (·.isPositional) = some p := by
    rw [← List.head?_filter, hp, List.head?_cons]
  have hmet : r.hasMet p = false := by
    rw [h.hasMet_eq]
    exact Parameter.any_eq_false hmem (by rw [haction]; decide) hrest
  have hread : r.readArgument c w = .ok ⟨given, .value p w, r.trailing⟩ := by
    rw [h.readArgument_eq, Token.ofArgument_undashed hw]
    show r.readPlain c w = _
    rw [h.readPlain_eq, readPositional, hfind]
    simp only [hmet, Bool.false_eq_true, if_false]
    exact wait_eq h.settled _
  exact Gets.cons hread (gets_nil ⟨Parameter.add_eq hmem hrest, h.trailing⟩)

/-! ### Reading a line -/

/-- What is admitted is the whole line, so what is read of it moves from the rest to what
was met. -/
theorem Gets.then {first arguments : List Argument} {met : List Occurrence}
    (hfirst : Gets c r first (given ++ met)) (h : Admissible c (given ++ (met ++ rest)))
    (hrest : ∀ {r' : Reader} {given'}, r'.Stands given' → Admissible c (given' ++ rest) →
      Gets c r' arguments (given' ++ rest)) :
    Gets c r (first ++ arguments) (given ++ (met ++ rest)) := by
  rw [← List.append_assoc] at h ⊢
  exact hfirst.append fun _ hr' => hrest hr' h

/-- A line that is as declared is read, occurrence by occurrence. -/
theorem gets_line {arguments : List Argument} (hc : c.WellFormed) (hl : Line c arguments rest)
    (h : r.Stands given) (hrest : Admissible c (given ++ rest)) :
    Gets c r arguments (given ++ rest) := by
  induction hl generalizing r given with
  | nil => exact gets_nil (by rwa [List.append_nil])
  | apart hp haction hname hw _ ih =>
    exact (h.apart hc hp haction hname hw hrest).then hrest ih
  | joined hp haction hname _ ih => exact (h.joined hc hp haction hname hrest).then hrest ih
  | flag hp hflag hname _ ih => exact (h.flag hc hp hflag hname hrest).then hrest ih
  | cluster hne hps _ ih => exact (h.cluster hc hne hps hrest).then hrest ih
  | positional hp haction hw _ ih => exact (h.positional hp haction hw hrest).then hrest ih

end Reader

/-! ### What the parser finds -/

section

variable {c : Command} {given : List Occurrence} {arguments : List Argument} {p : Parameter}

theorem Admissible.complete_eq (h : Admissible c given) :
    c.complete given = .ok (c.found given) := by
  rw [Command.complete, if_pos]
  refine List.all_eq_true.2 fun p hp => ?_
  cases hrequired : p.required with
  | false => rfl
  | true =>
    obtain ⟨o, ho, hid⟩ := h.required p hp hrequired
    exact List.any_eq_true.2 ⟨o, ho, decide_eq_true hid⟩

theorem parse_line (hc : c.WellFormed) (hl : Line c arguments given)
    (h : Admissible c given) : parse c arguments = .ok (c.found given) := by
  obtain ⟨r, hread, hr⟩ := Reader.gets_line hc hl Reader.stands_start h
  rw [parse, hread]
  show (do c.complete (← r.settled)) = _
  rw [hr.settled]
  exact h.complete_eq

theorem found_of_finds {m : Matches} (hc : c.WellFormed)
    (h : Finds c (parse c) arguments given m) : m = c.found given :=
  Except.ok.inj (h.parsed.symm.trans (parse_line hc h.line h.admissible))

/-- What occurs once is what is found by its identifier. -/
theorem find?_given {o : Occurrence} (ho : o ∈ given)
    (h : given.countP (·.id = o.id) ≤ 1) : given.find? (·.id = o.id) = some o := by
  rw [List.countP_eq_length_filter] at h
  have hmem : o ∈ given.filter (·.id = o.id) :=
    List.mem_filter.2 ⟨ho, decide_eq_true rfl⟩
  obtain ⟨q, hq⟩ := List.length_eq_one_iff.1 (le_antisymm h (List.length_pos_of_mem hmem))
  rw [hq] at hmem
  rw [← List.head?_filter, hq, List.mem_singleton.1 hmem, List.head?_cons]

theorem value?_found (hc : c.WellFormed) (hp : p ∈ c) (h : ∀ o ∈ given, o.id ≠ p.id) :
    (c.found given).value? p.id = p.default?.map .ofText := by
  have hnone : given.find? (·.id = p.id) = none :=
    List.find?_eq_none.2 fun o ho => by simpa using h o ho
  simp only [Command.found, hnone, hc.find?_id hp, Option.bind_none, Option.bind_some,
    Option.none_or]

/-- **The conventions are kept** for every command that is well formed. -/
theorem conventions_parse (hc : c.WellFormed) : Conventions c (parse c) where
  accepted hl h := ⟨_, parse_line hc hl h⟩
  value hm p hp haction w hw := by
    have honce := hm.admissible.once p hp (by rw [haction]; decide)
    have hfind := find?_given hw honce
    rw [found_of_finds hc hm]
    simp only [Command.found, hfind, Option.bind_some, Option.some_or]
  default hm p hp _ hnone := by
    rw [found_of_finds hc hm]
    exact value?_found hc hp hnone
  switch hm p _ _ := by
    rw [found_of_finds hc hm]
    simp [Command.found]
  count hm p _ _ := by
    rw [found_of_finds hc hm]
    rfl

end

theorem wellFormed_command : command.WellFormed where
  ids := by decide
  names := by decide
  letters := by decide
  plain := by decide
  undashed := by decide

end ByteByteJump.CommandLine
