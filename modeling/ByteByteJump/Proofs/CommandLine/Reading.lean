import ByteByteJump.Proofs.CommandLine.Occurrences
import ByteByteJump.Proofs.CommandLine.Parsing

/-! Reading what was spelled.

The parser is a parameter here, and all that is known of it is that it keeps to the
conventions for the parameters the program declares (`Conventions`). What a spelling must
give makes its occurrences admitted (`Spells.admissible`), so the parser accepts them, and
what it finds for each parameter comes to the options that were spelled
(`Spells.readWith_eq`). The parser that comes with the program is one that can be put in
(`read_spelled`). -/
namespace ByteByteJump.CommandLine

/-! ### What is admitted -/

section

variable {o : Options Argument} {items : List Item}

theorem countP_le_one {α : Type} {given : List Occurrence} {p : Parameter} {values : List α}
    {k : α → Occurrence} (h : given.filter (·.id = p.id) = values.map k)
    (hvalues : values.length ≤ 1) : given.countP (·.id = p.id) ≤ 1 := by
  rw [List.countP_eq_length_filter, h, List.length_map]
  exact hvalues

theorem Gives.length_le {α : Type} {value default : α} {given : List α}
    (h : Gives value default given) : given.length ≤ 1 := by
  obtain rfl | ⟨rfl, -⟩ := h
  · exact le_rfl
  · exact Nat.zero_le _

/-- An occurrence is among those of its parameter. -/
theorem mem_of_filter {α : Type} {given : List Occurrence} {p : Parameter} {values : List α}
    {text : α → Argument} {w : Argument}
    (h : given.filter (·.id = p.id) = values.map fun v => ⟨p.id, some (text v)⟩)
    (hw : ⟨p.id, some w⟩ ∈ given) : ∃ v ∈ values, text v = w := by
  have hmem : (⟨p.id, some w⟩ : Occurrence) ∈ given.filter (·.id = p.id) :=
    List.mem_filter.2 ⟨hw, decide_eq_true rfl⟩
  rw [h] at hmem
  obtain ⟨v, hv, heq⟩ := List.mem_map.1 hmem
  cases heq
  exact ⟨v, hv, rfl⟩

/-- A number of 64 bits is read back. -/
theorem count?_text {n : Decimal} (h : n.value < UInt64.size) : count? n.text = some n.value := by
  have htext : n.text.toList = n.digits := String.toList_ofList
  unfold count?
  rw [htext]
  extract_lets digits
  have hdigits : digits = n.digits := by
    unfold digits
    split
    · next heq => exact absurd (congrArg List.head? heq) (n.head?_digits (by decide))
    · rfl
  simp only [hdigits]
  exact if_pos ⟨n.ne_nil, n.all_isDigit, h⟩

theorem refusesUnread_ofText {α : Type} {read : String → Option α} {r : Refusal}
    {text : String} {v : α} (h : read text = some v) :
    refusesUnread read r (.ofText text) = none := by
  rw [refusesUnread, Argument.read?_ofText, h]
  rfl

theorem Spells.frames_lt (ho : o.Writable) (h : Spells o items) :
    ∀ n ∈ items.filterMap Item.frames?, n.value < UInt64.size := by
  intro n hn
  have hmem := List.mem_map_of_mem (f := Decimal.value) hn
  rw [h.frames, Option.mem_toList] at hmem
  exact ho.frames_lt n.value hmem

theorem Spells.frames_length (h : Spells o items) :
    (items.filterMap Item.frames?).length ≤ 1 := by
  rw [← List.length_map (f := Decimal.value), h.frames]
  exact Option.length_toList_le

/-- The parameters one by one. -/
theorem forall_mem_command {P : Parameter → Prop} (program : P .program) (scale : P .scale)
    (pacing : P .pacing) (mute : P .mute) (frames : P .frames) (verbose : P .verbose)
    (help : P .help) (version : P .version) : ∀ p ∈ command, P p := by
  simp [command, *]

/-- What a spelling must give is what is admitted. -/
theorem Spells.admissible (ho : o.Writable) (h : Spells o items) :
    Admissible command (items.flatMap Item.occurrences) where
  taken := by
    apply forall_mem_command
    case program =>
      intro w hw
      obtain ⟨path, hpath, rfl⟩ := mem_of_filter (filter_program items) hw
      rw [h.program, List.mem_singleton] at hpath
      rw [hpath]
      exact if_neg ho.program_ne
    case scale =>
      intro w hw
      obtain ⟨v, -, rfl⟩ := mem_of_filter (filter_scale items) hw
      exact refusesUnread_ofText v.ofWord?_word
    case pacing =>
      intro w hw
      obtain ⟨v, -, rfl⟩ := mem_of_filter (filter_pacing items) hw
      exact refusesUnread_ofText v.ofWord?_word
    case frames =>
      intro w hw
      obtain ⟨n, hn, rfl⟩ := mem_of_filter (filter_frames items) hw
      exact refusesUnread_ofText (count?_text (h.frames_lt ho n hn))
    all_goals exact fun _ _ => rfl
  once := by
    apply forall_mem_command
    all_goals intro haction
    case program => exact countP_le_one (filter_program items) (by rw [h.program]; exact le_rfl)
    case scale => exact countP_le_one (filter_scale items) h.scale.length_le
    case pacing => exact countP_le_one (filter_pacing items) h.pacing.length_le
    case mute =>
      rw [countP_mute, h.mute]
      exact Bool.toNat_le _
    case frames => exact countP_le_one (filter_frames items) h.frames_length
    case verbose => exact absurd rfl haction
    case help => exact (countP_ending items (.inl rfl)).trans_le (Nat.zero_le _)
    case version => exact (countP_ending items (.inr rfl)).trans_le (Nat.zero_le _)
  required := by
    apply forall_mem_command
    all_goals intro hrequired
    case program =>
      have hmem : (⟨Parameter.program.id, some o.program⟩ : Occurrence) ∈
          (items.flatMap Item.occurrences).filter (·.id = Parameter.program.id) := by
        rw [filter_program, h.program]
        exact List.mem_singleton_self _
      exact ⟨_, (List.mem_filter.1 hmem).1, rfl⟩
    all_goals exact absurd hrequired (by decide)

end

/-! ### What is found -/

section

variable {parser : List Argument → Except Ending Matches} {arguments : List Argument}
variable {given : List Occurrence} {m : Matches} {p : Parameter}

theorem Conventions.value?_given (hparser : Conventions command parser)
    (hm : Finds command parser arguments given m) (hp : p ∈ command) (haction : p.action = .set)
    {w : Argument} (h : given.filter (·.id = p.id) = [⟨p.id, some w⟩]) :
    m.value? p.id = some w := by
  have hmem : (⟨p.id, some w⟩ : Occurrence) ∈ given.filter (·.id = p.id) := by
    rw [h]
    exact List.mem_singleton_self _
  exact hparser.value hm p hp haction w (List.mem_filter.1 hmem).1

theorem Conventions.value?_default (hparser : Conventions command parser)
    (hm : Finds command parser arguments given m) (hp : p ∈ command) (haction : p.action = .set)
    (h : given.filter (·.id = p.id) = []) : m.value? p.id = p.default?.map .ofText := by
  refine hparser.default hm p hp haction fun o ho hid => ?_
  exact List.filter_eq_nil_iff.1 h o ho (decide_eq_true hid)

/-- A choice is found, whether it was given or is the default. -/
theorem Conventions.choice {α : Type} {text : α → String} {read : String → Option α}
    {value default : α} {values : List α} (hparser : Conventions command parser)
    (hm : Finds command parser arguments given m) (hp : p ∈ command) (haction : p.action = .set)
    (hdefault : p.default? = some (text default)) (hread : ∀ v, read (text v) = some v)
    (hgiven : given.filter (·.id = p.id) = values.map fun v => ⟨p.id, some (.ofText (text v))⟩)
    (h : Gives value default values) : (m.value? p.id).bind (·.read? read) = some value := by
  obtain rfl | ⟨rfl, rfl⟩ := h
  · rw [hparser.value?_given hm hp haction hgiven, Option.bind_some, Argument.read?_ofText, hread]
  · rw [hparser.value?_default hm hp haction hgiven, hdefault, Option.map_some,
      Option.bind_some, Argument.read?_ofText, hread]

end

/-! ### Choices read back -/

section

variable {parser : List Argument → Except Ending Matches} {o : Options Argument}
variable {items : List Item} {m : Matches}

theorem Spells.frames_found (hparser : Conventions command parser) (ho : o.Writable)
    (h : Spells o items) (hm : Finds command parser (items.flatMap Item.arguments)
      (items.flatMap Item.occurrences) m) :
    (m.value? Parameter.frames.id).bind (·.read? count?) = o.frames := by
  have hp : Parameter.frames ∈ command := by simp [command]
  have hfilter := filter_frames items
  have hframes := h.frames
  have hlt := h.frames_lt ho
  cases hn : o.frames with
  | none =>
    rw [hn, Option.toList_none, List.map_eq_nil_iff] at hframes
    rw [hframes] at hfilter
    rw [hparser.value?_default hm hp rfl hfilter]
    rfl
  | some n =>
    rw [hn, Option.toList_some, List.map_eq_singleton_iff] at hframes
    obtain ⟨d, hd, rfl⟩ := hframes
    rw [hd] at hfilter hlt
    rw [hparser.value?_given hm hp rfl hfilter, Option.bind_some, Argument.read?_ofText]
    exact count?_text (hlt d (List.mem_singleton_self d))

theorem Spells.mute_found (hparser : Conventions command parser) (h : Spells o items)
    (hm : Finds command parser (items.flatMap Item.arguments)
      (items.flatMap Item.occurrences) m) : m.isOn Parameter.mute.id = o.mute := by
  have hcount := (countP_mute items).trans h.mute
  have hswitch := hparser.switch hm .mute (by simp [command]) rfl
  have hmet : (∃ o ∈ items.flatMap Item.occurrences, o.id = Parameter.mute.id) ↔
      0 < o.mute.toNat := by
    rw [← hcount, List.countP_pos_iff]
    simp
  rw [Bool.eq_iff_iff, hswitch, hmet]
  cases o.mute <;> decide

/-- **A spelling is read.** -/
theorem Spells.readWith_eq (hparser : Conventions command parser) (ho : o.Writable)
    (h : Spells o items) : readWith parser (items.flatMap Item.arguments) =
      .ok { o with verbose := min 255 o.verbose } := by
  have hprogram : ∀ path ∈ items.filterMap Item.program?, path.Undashed := by
    rw [h.program]
    exact List.forall_mem_singleton.2 ho.undashed
  have hline := line_items hprogram
  have hadmissible := h.admissible ho
  obtain ⟨m, hparsed⟩ := hparser.accepted hline hadmissible
  have hm : Finds command parser _ _ m := ⟨hline, hadmissible, hparsed⟩
  have hpath : m.value? Parameter.program.id = some o.program := by
    have hfilter := filter_program items
    rw [h.program] at hfilter
    exact hparser.value?_given hm (by simp [command]) rfl hfilter
  have hscale : (m.value? Parameter.scale.id).bind (·.read? Scale.ofWord?) = some o.scale :=
    hparser.choice hm (by simp [command]) rfl rfl Scale.ofWord?_word (filter_scale items) h.scale
  have hpacing : (m.value? Parameter.pacing.id).bind (·.read? Pacing.ofWord?) = some o.pacing :=
    hparser.choice hm (by simp [command]) rfl rfl Pacing.ofWord?_word (filter_pacing items)
      h.pacing
  have hverbose : m.count Parameter.verbose.id = min 255 o.verbose := by
    rw [hparser.count hm .verbose (by simp [command]) rfl, countP_verbose, h.verbose, mostCounted]
  rw [readWith, hparsed]
  show Options.ofMatches m = _
  simp only [Options.ofMatches, hpath, hscale, hpacing, h.frames_found hparser ho hm,
    h.mute_found hparser hm, hverbose]

/-- Options written out in full are read back. -/
theorem readWith_items (hparser : Conventions command parser) (ho : o.Writable) :
    readWith parser (o.items.flatMap Item.arguments) =
      .ok { o with verbose := min 255 o.verbose } :=
  (spells_items o).readWith_eq hparser ho

/-- The program reads texts with the parser that comes with it. -/
theorem read_spelled {o : Options} {texts : List String} (ho : (o.mapProgram .ofText).Writable)
    (h : Spells (o.mapProgram .ofText) items)
    (htexts : texts.map .ofText = items.flatMap Item.arguments) :
    read texts = .ok { o with verbose := min 255 o.verbose } := by
  rw [read, htexts, h.readWith_eq (conventions_parse wellFormed_command) ho]
  have hpath : (Argument.ofText o.program).text?.getD "" = o.program := by
    rw [Argument.text?_ofText, Option.getD_some]
  show Except.ok { o with program := (Argument.ofText o.program).text?.getD "",
                          verbose := min 255 o.verbose } = _
  rw [hpath]

end

/-- What to show if logging was asked for `n` times. -/
def levelFor : ℕ → Level
  | 0 => .warn
  | 1 => .info
  | 2 => .debug
  | _ + 3 => .trace

theorem level_capped (o : Options Argument) :
    Options.level { o with verbose := min 255 o.verbose } = levelFor o.verbose := by
  obtain ⟨program, scale, pacing, mute, frames, verbose⟩ := o
  match verbose with
  | 0 | 1 | 2 => rfl
  | n + 3 =>
    have hcap : min 255 (n + 3) = min 252 n + 3 := by omega
    simp only [hcap]
    rfl

/-- A spelling is read as what it chooses. -/
structure ReadBack (parser : List Argument → Except Ending Matches) (o : Options Argument)
    (items : List Item) : Prop where
  /-- The options are those chosen, with what asks for logging counted up to 255. -/
  chosen : readWith parser (items.flatMap Item.arguments) =
    .ok { o with verbose := min 255 o.verbose }
  /-- The log shows what was asked for. -/
  level : (readWith parser (items.flatMap Item.arguments)).map Options.level =
    .ok (levelFor o.verbose)
  /-- The order does not matter. -/
  reordered : ∀ others : List Item, others.Perm items →
    readWith parser (others.flatMap Item.arguments) =
      readWith parser (items.flatMap Item.arguments)
  /-- Nor does the spelling. -/
  respelled : ∀ others : List Item, Spells o others →
    readWith parser (others.flatMap Item.arguments) =
      readWith parser (items.flatMap Item.arguments)

/-- **What was spelled is read**, by every parser that keeps to the conventions. Options that
can be written are read from every list of items that chooses them, in whatever order and
however each is spelled. -/
theorem spelled_options_read (parser : List Argument → Except Ending Matches)
    (hparser : Conventions command parser) (o : Options Argument) (items : List Item)
    (ho : o.Writable) (h : Spells o items) : ReadBack parser o items where
  chosen := h.readWith_eq hparser ho
  level := by
    rw [h.readWith_eq hparser ho]
    exact congrArg Except.ok (level_capped o)
  reordered others hp := by
    rw [(h.perm hp.symm).readWith_eq hparser ho, h.readWith_eq hparser ho]
  respelled others hothers := by
    rw [hothers.readWith_eq hparser ho, h.readWith_eq hparser ho]

/-- Out of order and spelled in every way, with one default left out and a path that is no
text. -/
theorem shuffled_options_read :
    let o : Options Argument := ⟨[0x64, 0xFF], .four, .truncated, true, some 120, 4⟩
    let items : List Item := [.cluster 0, .frames ⟨['0', '1', '2', '0'], by decide, by decide⟩ false,
      .program [0x64, 0xFF], .scale .four true, .mute, .cluster 1, .verbose]
    Conventions command (parse command) ∧ o.Writable ∧ Spells o items ∧
      ReadBack (parse command) o items ∧ items.flatMap Item.arguments =
        ["-v", "--frames", "0120"].map Argument.ofText ++ [0x64, 0xFF] ::
          ["--scale=4", "--mute", "-vv", "--verbose"].map Argument.ofText := by
  intro o items
  have hparser := conventions_parse wellFormed_command
  have ho : o.Writable := ⟨by decide, by decide, by decide⟩
  have hitems : Spells o items := ⟨rfl, .inl rfl, .inr ⟨rfl, rfl⟩, rfl, rfl, rfl⟩
  exact ⟨hparser, ho, hitems, spelled_options_read _ hparser o items ho hitems, rfl⟩

end ByteByteJump.CommandLine
