import ByteByteJump.Proofs.Audio.Playback
import ByteByteJump.Proofs.Audio.Sample

/-! Filling does not depend on how a device cuts its buffers.

A player has one output for each device frame that a buffer begins, and the elements of a
frame are that output on all channels. So nothing is left over between buffers that end with
a frame, and several of them are one (`fillAll_eq`). To see which output an element has,
filling is done with any source of samples in the place of a player (`fillFramesFrom`), above
all with one that keeps what it was asked for (`noted`).

What a device gets for an output is a function of the output alone, and the single
precision form of it tells samples apart (`single_injective`); hence every format is a
conversion of that one. -/
namespace ByteByteJump.Audio

theorem Sample.single_injective : Function.Injective Sample.single := by
  have hvalue (s : Sample) : singleValue s.single = s.amplitude := by
    have h := singleValue_single s.toUInt8
    rwa [ofByte, Int8.toInt8_toUInt8] at h
  intro s t h
  have hamplitude : s.amplitude = t.amplitude := by rw [← hvalue, ← hvalue, h]
  have hint : s.toInt = t.toInt := by
    simp only [amplitude] at hamplitude
    exact_mod_cast (div_left_inj' (by norm_num)).1 hamplitude
  exact Int8.toInt_inj.1 hint

namespace Player

variable {α β σ : Type} {channels : Nat} {p : Player}

/-! ### Sources of samples -/

/-- `fillFrames?` with another source of samples in the place of the player. -/
def fillFramesFrom (call : σ → Option (Sample × σ)) (convert : Sample → α) (channels : Nat)
    (h : 0 < channels) (n : Nat) (s : σ) : Option (List α × σ) :=
  if n = 0 then some ([], s)
  else
    match call s with
    | none => none
    | some (v, s) =>
      (fillFramesFrom call convert channels h (n - channels) s).map fun (rest, s) =>
        (List.replicate (min channels n) (convert v) ++ rest, s)
termination_by n

/-- `fill?` with another source: whether the filling ends, and if so, whether there are frames,
and the source that is left. -/
def fillFrom (call : σ → Option (Sample × σ)) (convert : Sample → α) (channels n : Nat) (s : σ) :
    Option (Option (List α) × σ) :=
  if h : 0 < channels then
    (fillFramesFrom call convert channels h n s).map fun (out, s) => (some out, s)
  else some (none, s)

/-- A source that keeps the values it gave, in order. -/
def noted (call : σ → Option (Sample × σ)) (s : List Sample × σ) :
    Option (Sample × List Sample × σ) :=
  (call s.2).map fun (v, rest) => (v, s.1 ++ [v], rest)

/-- A player is the source that it was. -/
theorem fillFramesFrom_next? (convert : Sample → α) (h : 0 < channels) (n : Nat) (p : Player) :
    fillFramesFrom next? convert channels h n p = fillFrames? convert channels h n p := by
  induction n using Nat.strong_induction_on generalizing p with
  | _ n ih =>
    rw [fillFramesFrom, fillFrames?]
    by_cases hn : n = 0
    · rw [if_pos hn, if_pos hn]
    · rw [if_neg hn, if_neg hn]
      cases p.next? with
      | none => rfl
      | some r => simp only [ih (n - channels) (by omega)]

/-- The outputs asked for are as many as there are frames. -/
theorem fillFramesFrom_noted (convert : Sample → α) (h : 0 < channels) (n : Nat)
    (hp : p.hold.Steady) (values : List Sample) :
    fillFramesFrom (noted next?) convert channels h n (values, p) =
      some ((spread convert channels (nextMany (frameCount channels n) p).1).take n,
        values ++ (nextMany (frameCount channels n) p).1,
        (nextMany (frameCount channels n) p).2) := by
  induction n using Nat.strong_induction_on generalizing values p with
  | _ n ih =>
    rw [fillFramesFrom]
    by_cases hn : n = 0
    · subst hn
      rw [if_pos rfl, frameCount_zero h, nextMany, List.append_nil]
      rfl
    · rw [if_neg hn, frameCount_pos h (Nat.pos_of_ne_zero hn), nextMany_succ hp,
        take_spread_cons, noted, next?_of_steady hp]
      simp only [Option.map_some, ih (n - channels) (by omega) (steady_advanced hp),
        List.append_assoc, List.singleton_append]

/-! ### Elements -/

/-- On every channel of a frame is the value of the frame. -/
theorem getElem?_spread (h : 0 < channels) (convert : Sample → α) (values : List Sample)
    (i : Nat) : (spread convert channels values)[i]? = values[i / channels]?.map convert := by
  induction values generalizing i with
  | nil => rfl
  | cons s values ih =>
    rw [spread_cons]
    by_cases hi : i < channels
    · rw [List.getElem?_append_left (by rwa [List.length_replicate]), List.getElem?_replicate,
        if_pos hi, Nat.div_eq_of_lt hi]
      rfl
    · have hle : channels ≤ i := Nat.le_of_not_lt hi
      rw [List.getElem?_append_right (by rwa [List.length_replicate]), List.length_replicate, ih,
        Nat.div_eq_sub_div h hle]
      rfl

theorem length_spread (convert : Sample → α) (channels : Nat) (values : List Sample) :
    (spread convert channels values).length = values.length * channels := by
  rw [spread, List.length_flatMap]
  simp only [List.length_replicate, List.map_const', List.sum_replicate_nat]

theorem le_frameCount_mul (h : 0 < channels) (n : Nat) : n ≤ frameCount channels n * channels := by
  have hdiv := Nat.div_add_mod (n + channels - 1) channels
  have hmod := Nat.mod_lt (n + channels - 1) h
  rw [frameCount, Nat.mul_comm]
  omega

/-- What a player that is asked for outputs makes of them in a buffer. -/
theorem fill?_elements (convert : Sample → α) (h : 0 < channels) (n : Nat)
    (hp : p.hold.Steady) :
    ∃ out, p.fill? convert channels n = some (out, (nextMany (frameCount channels n) p).2) ∧
      fillFrom (noted next?) convert channels n ([], p) =
        some (some out, nextMany (frameCount channels n) p) ∧
      out.length = n ∧
      ∀ i < n, out[i]? = (nextMany (frameCount channels n) p).1[i / channels]?.map convert := by
  refine ⟨_, (dif_pos h).trans (fillFrames?_eq convert h n hp), ?_, ?_, fun i hi => ?_⟩
  · rw [fillFrom, dif_pos h, fillFramesFrom_noted convert h n hp, List.nil_append]
    rfl
  · rw [List.length_take, length_spread, length_nextMany hp]
    exact Nat.min_eq_left (le_frameCount_mul h n)
  · rw [List.getElem?_take_of_lt hi, getElem?_spread h]

/-! ### Cuts -/

/-- Buffers one after the other, each with what the one before left. -/
def fillAll? (convert : Sample → α) (channels : Nat) : List Nat → Player → Option (List α × Player)
  | [], p => some ([], p)
  | n :: ns, p => do
    let (out, p) ← p.fill? convert channels n
    let (rest, p) ← fillAll? convert channels ns p
    return (out ++ rest, p)

theorem fillFrames?_add (convert : Sample → α) (h : 0 < channels) (k n : Nat) (p : Player) :
    fillFrames? convert channels h (channels * k + n) p = do
      let (out, p) ← fillFrames? convert channels h (channels * k) p
      let (more, p) ← fillFrames? convert channels h n p
      return (out ++ more, p) := by
  induction k generalizing p with
  | zero =>
    have hempty : fillFrames? convert channels h 0 p = some ([], p) := by
      rw [fillFrames?, if_pos rfl]
    rw [Nat.mul_zero, Nat.zero_add, hempty]
    cases hmore : fillFrames? convert channels h n p with
    | none => simp [hmore]
    | some more => simp [hmore]
  | succ k ih =>
    -- Both begin with the same frame, and without it both are shorter by its channels.
    have hboth : channels * (k + 1) + n - channels = channels * k + n := by
      rw [Nat.mul_succ]
      omega
    have hfirst : channels * (k + 1) - channels = channels * k := by
      rw [Nat.mul_succ, Nat.add_sub_cancel]
    have hle : channels ≤ channels * (k + 1) := Nat.le_mul_of_pos_right _ (Nat.succ_pos k)
    rw [fillFrames?, fillFrames?, if_neg (by omega), if_neg (by omega)]
    cases p.next? with
    | none => rfl
    | some r =>
      simp only [hboth, hfirst, ih, Nat.min_eq_left hle,
        Nat.min_eq_left (Nat.le_add_right_of_le hle)]
      cases fillFrames? convert channels h (channels * k) r.2 with
      | none => rfl
      | some first =>
        cases hmore : fillFrames? convert channels h n first.2 with
        | none => simp [hmore]
        | some more => simp [hmore, List.append_assoc]

/-- A buffer of whole frames and then another are one. -/
theorem fill?_add (convert : Sample → α) {n : Nat} (hn : channels ∣ n) (rest : Nat) (p : Player) :
    p.fill? convert channels (n + rest) = do
      let (out, p) ← p.fill? convert channels n
      let (more, p) ← p.fill? convert channels rest
      return (out ++ more, p) := by
  obtain ⟨k, rfl⟩ := hn
  unfold fill?
  by_cases h : 0 < channels
  · simp only [dif_pos h, fillFrames?_add]
  · simp only [dif_neg h]
    rfl

/-- However a buffer is cut between frames, its parts one after the other are the whole. -/
theorem fillAll_eq (convert : Sample → α) {ns : List Nat} (hns : ∀ n ∈ ns, channels ∣ n)
    (last : Nat) (p : Player) :
    fillAll? convert channels (ns ++ [last]) p = p.fill? convert channels (ns.sum + last) := by
  induction ns generalizing p with
  | nil =>
    rw [List.nil_append, List.sum_nil, Nat.zero_add, fillAll?]
    cases p.fill? convert channels last with
    | none => rfl
    | some r => simp [fillAll?]
  | cons n ns ih =>
    obtain ⟨hn, hns⟩ := List.forall_mem_cons.1 hns
    rw [List.cons_append, fillAll?, List.sum_cons, Nat.add_assoc, fill?_add convert hn]
    simp only [ih hns]

/-! ### Formats -/

theorem fill?_comp (f : α → β) (convert : Sample → α) (channels n : Nat) (hp : p.hold.Steady) :
    p.fill? (f ∘ convert) channels n =
      (p.fill? convert channels n).map fun r => (r.1.map f, r.2) := by
  unfold fill?
  by_cases h : 0 < channels
  · simp only [dif_pos h, fillFrames?_eq _ h n hp, Option.map_some, spread, List.map_take,
      List.map_flatMap, List.map_replicate, Function.comp_apply]
  · simp only [dif_neg h, Option.map_none]

/-- Every format is a conversion of single precision. -/
theorem exists_comp_single (convert : Sample → α) :
    ∃ f : UInt32 → α, convert = f ∘ Sample.single := by
  refine ⟨convert ∘ Function.invFun Sample.single, ?_⟩
  rw [Function.comp_assoc, Function.invFun_comp Sample.single_injective]
  rfl

/-! ### All of it -/

/-- How a player fills buffers with frames of so many channels. -/
structure Filling (p : Player) (channels : Nat) : Prop where
  /-- With the player as its source, `fillFrom` is `fill?`, and comes to an end. -/
  source : ∀ (α : Type) (convert : Sample → α) (n : Nat),
    fillFrom next? convert channels n p =
      some ((p.fill? convert channels n).map Prod.fst,
        ((p.fill? convert channels n).map Prod.snd).getD p)
  /-- For each frame, the last one also if it is short, there is one output; its value is what
  the elements of the frame are conversions of. -/
  calls : ∀ (α : Type) (convert : Sample → α) (n : Nat), 0 < channels →
    ∃ out q values, p.fill? convert channels n = some (out, q) ∧
      fillFrom (noted next?) convert channels n ([], p) = some (some out, values, q) ∧
      (values, q) = nextMany (frameCount channels n) p ∧
      values.length = frameCount channels n ∧ out.length = n ∧
      ∀ i < n, out[i]? = values[i / channels]?.map convert
  cut : ∀ (α : Type) (convert : Sample → α) (n rest : Nat), channels ∣ n →
    p.fill? convert channels (n + rest) = do
      let (out, q) ← p.fill? convert channels n
      let (more, q) ← q.fill? convert channels rest
      return (out ++ more, q)
  cuts : ∀ (α : Type) (convert : Sample → α) (ns : List Nat) (last : Nat),
    (∀ n ∈ ns, channels ∣ n) →
      fillAll? convert channels (ns ++ [last]) p = p.fill? convert channels (ns.sum + last)
  converted : ∀ (α : Type) (fromSingle : UInt32 → α) (n : Nat),
    p.fill? (fromSingle ∘ Sample.single) channels n =
      (p.fill? Sample.single channels n).map fun r => (r.1.map fromSingle, r.2)
  format : ∀ (α : Type) (convert : Sample → α), ∃ fromSingle : UInt32 → α,
    convert = fromSingle ∘ Sample.single
  /-- Without channels there is no buffer, and nothing is asked for. -/
  noChannels : channels = 0 → ∀ (α : Type) (convert : Sample → α) (n : Nat),
    p.fill? convert channels n = none ∧
      fillFrom (noted next?) convert channels n ([], p) = some (none, [], p)

theorem fillFrom_next? (convert : Sample → α) (channels n : Nat) (hp : p.hold.Steady) :
    fillFrom next? convert channels n p =
      some ((p.fill? convert channels n).map Prod.fst,
        ((p.fill? convert channels n).map Prod.snd).getD p) := by
  unfold fillFrom fill?
  by_cases h : 0 < channels
  · rw [dif_pos h, dif_pos h, fillFramesFrom_next?, fillFrames?_eq convert h n hp]
    rfl
  · rw [dif_neg h, dif_neg h]
    rfl

theorem filling_of_steady (channels : Nat) (hp : p.hold.Steady) : Filling p channels where
  source _ convert n := fillFrom_next? convert channels n hp
  calls _ convert n h := by
    obtain ⟨out, hfill, hnoted, hlength, helements⟩ := fill?_elements convert h n hp
    exact ⟨out, _, _, hfill, hnoted, rfl, length_nextMany hp _, hlength, helements⟩
  cut _ convert _ rest hn := fill?_add convert hn rest p
  cuts _ convert _ last hns := fillAll_eq convert hns last p
  converted _ fromSingle n := fill?_comp fromSingle Sample.single channels n hp
  format _ convert := exists_comp_single convert
  noChannels hzero _ _ _ := by
    subst hzero
    exact ⟨rfl, rfl⟩

/-- What a filled buffer leaves is a player after calls. -/
theorem Called.fillFrames {rate : Nat} (hh : Called rate p.hold) {convert : Sample → α}
    {h : 0 < channels} {n : Nat} {out : List α} {q : Player}
    (hfill : p.fillFrames? convert channels h n = some (out, q)) : Called rate q.hold := by
  induction n using Nat.strong_induction_on generalizing p out with
  | _ n ih =>
    rw [fillFrames?] at hfill
    by_cases hn : n = 0
    · rw [if_pos hn] at hfill
      cases hfill
      exact hh
    · rw [if_neg hn] at hfill
      split at hfill
      next => cases hfill
      next s r hnext =>
        obtain ⟨⟨rest, last⟩, hrest, heq⟩ := Option.map_eq_some_iff.1 hfill
        cases heq
        exact ih (n - channels) (by omega) (hh.next hnext) hrest

/-- **Filling does not depend on how a device cuts its buffers**, nor on what it takes samples
as, at any rate but 0 and after any calls. -/
theorem filling_exact {rate : Nat} {h : Hold} (hrate : 0 < rate) (hh : Called rate h) (q : Queue)
    (channels : Nat) :
    Filling ⟨h, q⟩ channels ∧ ∀ (α : Type) (convert : Sample → α) (n : Nat) (out : List α)
      (p : Player), fill? convert channels n ⟨h, q⟩ = some (out, p) → Called rate p.hold := by
  refine ⟨filling_of_steady channels (hh.steady hrate), fun _ _ _ _ _ hfill => ?_⟩
  obtain ⟨_, hfill⟩ := fillFrames?_of_fill? hfill
  exact Called.fillFrames (p := ⟨h, q⟩) hh hfill

/-- Two channels and five elements, in buffers of four and of one. -/
theorem brief_fills_alike :
    0 < sourceRate ∧ Called sourceRate brief.hold ∧
      fillAll? Sample.signed16 2 [4, 1] brief = brief.fill? Sample.signed16 2 5 ∧
      (brief.fill? Sample.signed16 2 5).map Prod.fst = some [16384, 16384, 0, 0, 0] := by
  have hrate : 0 < sourceRate := by decide
  have hcalled : Called sourceRate brief.hold := .start
  have hfilling := (filling_exact hrate hcalled brief.queue 2).1
  refine ⟨hrate, hcalled, hfilling.cuts _ _ [4] 1 (by decide), ?_⟩
  have hsteady := hcalled.steady hrate
  rw [fill?, dif_pos (by decide), fillFrames?_eq _ (by decide) 5 hsteady, fst_nextMany hsteady]
  decide +kernel

/-! ### The rate 0 -/

theorem round_infinite_sub_one : round (Hold.infinite - Hold.one) = Hold.infinite := by
  decide +kernel

/-- With an infinite phase another sample is always due. -/
theorem catchUp?_of_infinite (h : p.hold.phase = Hold.infinite) : p.catchUp? = none := by
  have hstuck : p.take.hold.phase = p.hold.phase := by
    rw [hold_take, Hold.give, h]
    exact round_infinite_sub_one
  rw [catchUp?_eq_none_iff]
  intro i
  rw [phase_iterate_take_of_stuck hstuck, h]
  decide

theorem next?_of_infinite (h : p.hold.phase = Hold.infinite) : p.next? = none := by
  rw [next?, catchUp?_of_infinite h, Option.map_none]

/-- A player at the rate 0 that was given one byte. -/
def endless : Player := ((ofRate 0).push [64]).1

theorem next?_endless :
    endless.next? = some (64, ⟨⟨Hold.infinite, Hold.infinite, 64⟩, ⟨[]⟩⟩) := by
  have hdue : Hold.one ≤ endless.hold.phase := Nat.le_refl _
  have hdone : endless.take.hold.phase < Hold.one := by decide +kernel
  rw [next?, catchUp?_of_due hdue, catchUp?_of_done hdone]
  decide +kernel

/-- At the rate 0 a buffer of two frames is never filled. -/
theorem endless_never_fills :
    Called 0 endless.hold ∧ endless.fill? Sample.signed16 1 2 = none ∧ ¬ Filling endless 1 := by
  have hsecond := next?_of_infinite (p := ⟨⟨Hold.infinite, Hold.infinite, 64⟩, ⟨[]⟩⟩) rfl
  have hnone : endless.fill? Sample.signed16 1 2 = none := by
    rw [fill?, dif_pos Nat.one_pos, fillFrames?, if_neg (by decide), next?_endless]
    dsimp only
    rw [fillFrames?, if_neg (by decide), hsecond, Option.map_none]
  refine ⟨.start, hnone, fun hfilling => ?_⟩
  obtain ⟨_, _, _, hfill, -⟩ := hfilling.calls _ Sample.signed16 2 Nat.one_pos
  cases hnone.symm.trans hfill

end Player

end ByteByteJump.Audio
