import ByteByteJump.Proofs.CommandLine.Spelling

/-! What a spelling stands for.

Each item is spelled as the grammar has it (`Item.line`), so a list of items is a line
(`line_items`) and stands for the occurrences of its items, one after the other. Which of
them are of one parameter depends neither on the others nor on how an item is spelled
(`filter_occurrences` and `countP_occurrences`). -/
namespace ByteByteJump.CommandLine

/-! ### Texts as arguments -/

namespace Argument

theorem ofText_append (s t : String) : ofText (s ++ t) = ofText s ++ ofText t := by
  simp [ofText, String.toUTF8, String.toByteArray_append]

theorem ofText_ofList (chars : List Char) :
    ofText (String.ofList chars) = chars.flatMap String.utf8EncodeChar := by
  simp [ofText, String.toUTF8, String.toByteArray_ofList, List.utf8Encode]

theorem ofText_dashed (name : String) : ofText ("--" ++ name) = (ofText name).long :=
  ofText_append "--" name

theorem ofText_joined (name value : String) :
    ofText ("--" ++ name ++ "=" ++ value) = (ofText name ++ equals :: ofText value).long := by
  have hequals : ofText "=" = [equals] := by decide
  rw [ofText_append, ofText_append, ofText_dashed, hequals, List.append_assoc,
    List.singleton_append]
  rfl

/-- A text of letters is as many bytes. -/
theorem ofText_replicate (n : ℕ) :
    ofText (String.ofList ('-' :: List.replicate n 'v')) =
      dash :: List.replicate n 'v'.toUInt8 := by
  have hletters : (List.replicate n 'v').flatMap String.utf8EncodeChar =
      List.replicate n 'v'.toUInt8 := by
    rw [List.flatMap_replicate]
    exact List.flatten_replicate_singleton
  rw [ofText_ofList, List.flatMap_cons, hletters]
  rfl

end Argument

/-- A number does not start with a dash. -/
theorem Decimal.undashed (n : Decimal) : (Argument.ofText n.text).Undashed := by
  obtain ⟨digits, hne, hdigits⟩ := n
  obtain ⟨c, rest, rfl⟩ := List.exists_cons_of_ne_nil hne
  -- A digit is a single byte, so the first byte of the text is one that is a digit.
  have hc : 48 ≤ c.val.toNat ∧ c.val.toNat ≤ 57 :=
    Char.isDigit_iff_toNat.1 (List.all_eq_true.1 hdigits c List.mem_cons_self)
  have hencode : String.utf8EncodeChar c = [UInt8.ofNat c.val.toNat] := if_pos (by omega)
  have htext : Argument.ofText (String.ofList (c :: rest)) =
      UInt8.ofNat c.val.toNat :: rest.flatMap String.utf8EncodeChar := by
    rw [Argument.ofText_ofList, List.flatMap_cons, hencode, List.singleton_append]
  intro hhead
  rw [Decimal.text, htext, List.head?_cons] at hhead
  have hlt : c.val.toNat < UInt8.size := by
    show _ < 256
    omega
  have hbyte := congrArg UInt8.toNat (Option.some.inj hhead)
  have hdash : Argument.dash.toNat = 45 := rfl
  rw [UInt8.toNat_ofNat_of_lt' hlt] at hbyte
  omega

theorem undashed_scale (v : Scale) : (Argument.ofText v.word).Undashed := by
  cases v <;> decide

theorem undashed_pacing (v : Pacing) : (Argument.ofText v.word).Undashed := by
  cases v <;> decide

/-! ### Items as a line -/

section

variable {arguments : List Argument} {given : List Occurrence} {p : Parameter}

/-- What an item is an occurrence of, or several. -/
def Item.occurrences : Item → List Occurrence
  | program path => [⟨Parameter.program.id, some path⟩]
  | scale v _ => [⟨Parameter.scale.id, some (.ofText v.word)⟩]
  | pacing v _ => [⟨Parameter.pacing.id, some (.ofText v.word)⟩]
  | frames n _ => [⟨Parameter.frames.id, some (.ofText n.text)⟩]
  | mute => [⟨Parameter.mute.id, none⟩]
  | verbose => [⟨Parameter.verbose.id, none⟩]
  | cluster more => List.replicate (more + 1) ⟨Parameter.verbose.id, none⟩

theorem Line.valued {name value : String} (hp : p ∈ command) (haction : p.action = .set)
    (hname : p.long? = some name) (hvalue : (Argument.ofText value).Undashed) (joined : Bool)
    (rest : Line command arguments given) :
    Line command (valued name value joined ++ arguments)
      (⟨p.id, some (.ofText value)⟩ :: given) := by
  have hname' : p.name? = some (Argument.ofText name) := by rw [Parameter.name?, hname]; rfl
  cases joined with
  | false =>
    show Line command (_ :: _ :: arguments) _
    rw [Argument.ofText_dashed]
    exact .apart hp haction hname' hvalue rest
  | true =>
    show Line command (_ :: arguments) _
    rw [Argument.ofText_joined]
    exact .joined hp haction hname' rest

theorem Line.letters (more : ℕ) (rest : Line command arguments given) :
    Line command ((Item.cluster more).arguments ++ arguments)
      ((Item.cluster more).occurrences ++ given) := by
  have hletters : List.Forall₂ (Lettered command) (List.replicate (more + 1) Parameter.verbose)
      (List.replicate (more + 1) 'v'.toUInt8) := by
    have hletter : Lettered command Parameter.verbose 'v'.toUInt8 :=
      ⟨by simp [command], .inr rfl, rfl⟩
    rw [List.forall₂_iff_get]
    simp [hletter]
  have hne : List.replicate (more + 1) Parameter.verbose ≠ [] := List.cons_ne_nil _ _
  have hline := Line.cluster hne hletters rest
  rw [List.map_replicate] at hline
  rw [Item.arguments, Argument.ofText_replicate]
  exact hline

/-- An item is spelled as the grammar has it. -/
theorem Item.line {item : Item} (h : ∀ path ∈ item.program?, path.Undashed)
    (rest : Line command arguments given) :
    Line command (item.arguments ++ arguments) (item.occurrences ++ given) := by
  cases item with
  | program path => exact .positional rfl rfl (h path rfl) rest
  | scale v joined => exact rest.valued (by simp [command]) rfl rfl (undashed_scale v) joined
  | pacing v joined => exact rest.valued (by simp [command]) rfl rfl (undashed_pacing v) joined
  | frames n joined => exact rest.valued (by simp [command]) rfl rfl n.undashed joined
  | mute => exact .flag (p := .mute) (by simp [command]) (.inl rfl) rfl rest
  | verbose => exact .flag (p := .verbose) (by simp [command]) (.inr rfl) rfl rest
  | cluster more => exact rest.letters more

theorem line_items {items : List Item}
    (h : ∀ path ∈ items.filterMap Item.program?, path.Undashed) :
    Line command (items.flatMap Item.arguments) (items.flatMap Item.occurrences) := by
  induction items with
  | nil => exact .nil
  | cons item items ih =>
    have hitem : ∀ path ∈ item.program?, path.Undashed := fun path hpath =>
      h path (List.mem_filterMap.2 ⟨item, List.mem_cons_self, hpath⟩)
    have hitems : ∀ path ∈ items.filterMap Item.program?, path.Undashed := by
      intro path hpath
      obtain ⟨i, hi, hi'⟩ := List.mem_filterMap.1 hpath
      exact h path (List.mem_filterMap.2 ⟨i, List.mem_cons_of_mem _ hi, hi'⟩)
    exact Item.line hitem (ih hitems)

end

/-! ### The occurrences of one parameter -/

section

variable {α : Type} {p : Parameter} (items : List Item)

/-- If each item has at most one, they are those of the items that have one. -/
theorem filter_occurrences {f? : Item → Option α} {k : α → Occurrence}
    (h : ∀ i : Item, i.occurrences.filter (·.id = p.id) = ((f? i).map k).toList) :
    (items.flatMap Item.occurrences).filter (·.id = p.id) = (items.filterMap f?).map k := by
  induction items with
  | nil => rfl
  | cons item items ih =>
    rw [List.flatMap_cons, List.filter_append, h, ih, List.filterMap_cons]
    cases f? item <;> rfl

theorem countP_occurrences {n : Item → ℕ}
    (h : ∀ i : Item, i.occurrences.countP (·.id = p.id) = n i) :
    (items.flatMap Item.occurrences).countP (·.id = p.id) = (items.map n).sum := by
  rw [List.countP_flatMap]
  exact congrArg List.sum (List.map_congr_left fun i _ => h i)

theorem filter_program :
    (items.flatMap Item.occurrences).filter (·.id = Parameter.program.id) =
      (items.filterMap Item.program?).map fun path => ⟨Parameter.program.id, some path⟩ :=
  filter_occurrences items fun i => by
    cases i <;> simp [Item.occurrences, Item.program?] <;> decide

theorem filter_scale :
    (items.flatMap Item.occurrences).filter (·.id = Parameter.scale.id) =
      (items.filterMap Item.scale?).map fun v => ⟨Parameter.scale.id, some (.ofText v.word)⟩ :=
  filter_occurrences items fun i => by
    cases i <;> simp [Item.occurrences, Item.scale?] <;> decide

theorem filter_pacing :
    (items.flatMap Item.occurrences).filter (·.id = Parameter.pacing.id) =
      (items.filterMap Item.pacing?).map fun v => ⟨Parameter.pacing.id, some (.ofText v.word)⟩ :=
  filter_occurrences items fun i => by
    cases i <;> simp [Item.occurrences, Item.pacing?] <;> decide

theorem filter_frames :
    (items.flatMap Item.occurrences).filter (·.id = Parameter.frames.id) =
      (items.filterMap Item.frames?).map fun n => ⟨Parameter.frames.id, some (.ofText n.text)⟩ :=
  filter_occurrences items fun i => by
    cases i <;> simp [Item.occurrences, Item.frames?] <;> decide

theorem countP_mute :
    (items.flatMap Item.occurrences).countP (·.id = Parameter.mute.id) =
      (items.map Item.mutes).sum :=
  countP_occurrences items fun i => by
    cases i <;> simp [Item.occurrences, Item.mutes, List.countP_replicate] <;> decide

theorem countP_verbose :
    (items.flatMap Item.occurrences).countP (·.id = Parameter.verbose.id) =
      (items.map Item.flags).sum :=
  countP_occurrences items fun i => by
    cases i <;> simp [Item.occurrences, Item.flags, List.countP_replicate] <;> decide

/-- No item asks for a text. -/
theorem countP_ending {p : Parameter} (h : p.id = "help" ∨ p.id = "version") :
    (items.flatMap Item.occurrences).countP (·.id = p.id) = 0 := by
  have hcount : ∀ i : Item, i.occurrences.countP (·.id = p.id) = 0 := fun i => by
    obtain heq | heq := h
    all_goals rw [heq]; cases i <;> simp [Item.occurrences, List.countP_replicate] <;> decide
  rw [countP_occurrences items hcount]
  simp

end

end ByteByteJump.CommandLine
