import Mathlib.Data.List.Nodup
import Mathlib.Data.List.Pairwise
import ByteByteJump.Proofs.Audio.Phase
import ByteByteJump.Proofs.Audio.Queue

/-! Playing neither reorders, repeats nor invents sound.

A player takes samples from its queue while its phase holds a whole one, and gives the
device the last that it has taken, or silence where it found the queue empty. The log of
a player has each take and each frame in the order in which they happen (`Logged`), in
whatever way pushes and buffers alternate. So a frame plays what the last take before it
got, and no take is gone back to. -/
namespace ByteByteJump.Audio

namespace Ledger

/-- What the last of so many takes got, if it got a sample. -/
def played (l : Ledger) (count : Nat) : Option Nat := l.takes[count - 1]?.join

/-- What is heard after so many takes. -/
def value (l : Ledger) (count : Nat) : Sample := (l.sample? (l.played count)).getD .silence

/-- For each frame the sample that it plays, or none if it plays silence. -/
def plays (l : Ledger) : List (Option Nat) := l.heard.map l.played

variable {l : Ledger} {count : Nat}

theorem value_pushed (hl : ∀ i ∈ l.popped, i < l.pushed.length) (samples : List Sample)
    (dropped : Nat) : (l.enter (.pushed samples dropped)).value count = l.value count := by
  have hplayed : ∀ i ∈ l.played count, i < l.pushed.length := by
    intro i hi
    apply hl i
    have htake : l.takes[count - 1]? = some (some i) := Option.join_eq_some_iff.1 hi
    exact List.reduceOption_mem_iff.2 (List.mem_of_getElem? htake)
  show ((l.enter _).sample? (l.played count)).getD _ = _
  rw [sample?_pushed l samples dropped hplayed, value]

theorem played_taken (hcount : 0 < count) (hle : count ≤ l.takes.length) (answer : Option Sample) :
    (l.enter (.taken answer)).played count = l.played count := by
  show (l.takes ++ _)[count - 1]?.join = _
  rw [List.getElem?_append_left (by omega), played]

theorem value_taken (hcount : 0 < count) (hle : count ≤ l.takes.length) (answer : Option Sample) :
    (l.enter (.taken answer)).value count = l.value count := by
  rw [value, played_taken hcount hle, value]
  rfl

/-- The last take is heard with its answer. -/
theorem value_last {answer : Option Sample}
    (hanswer : l.sample? (answer.map fun _ => l.left) = answer) :
    (l.enter (.taken answer)).value (l.takes.length + 1) = answer.getD .silence := by
  have hplayed : (l.enter (.taken answer)).played (l.takes.length + 1) =
      answer.map fun _ => l.left := by
    show (l.takes ++ [_])[l.takes.length + 1 - 1]?.join = _
    rw [Nat.add_sub_cancel, List.getElem?_concat_length]
    rfl
  rw [value, hplayed]
  exact congrArg (Option.getD · .silence) hanswer

/-! ### Takes in order -/

theorem takes_of_played {i : Nat} (h : l.played count = some i) :
    l.takes[count - 1]? = some (some i) :=
  Option.join_eq_some_iff.1 h

/-- Later takes get later samples. -/
theorem taken_lt (hl : l.popped.Pairwise (· < ·)) {m n i j : Nat} (hmn : m < n)
    (hi : l.takes[m]? = some (some i)) (hj : l.takes[n]? = some (some j)) : i < j := by
  obtain ⟨hm, hi⟩ := List.getElem?_eq_some_iff.1 hi
  obtain ⟨hn, hj⟩ := List.getElem?_eq_some_iff.1 hj
  have hsorted := List.pairwise_filterMap.1 hl
  exact List.pairwise_iff_getElem.1 hsorted m n hm hn hmn i hi j hj

theorem played_le (hl : l.popped.Pairwise (· < ·)) {m n i j : Nat} (hm : 0 < m) (hmn : m ≤ n)
    (hi : l.played m = some i) (hj : l.played n = some j) : i ≤ j := by
  rcases Nat.lt_or_eq_of_le hmn with hlt | rfl
  · exact Nat.le_of_lt (taken_lt hl (by omega) (takes_of_played hi) (takes_of_played hj))
  · exact Nat.le_of_eq (Option.some.inj (hi.symm.trans hj))

/-- One sample is not got by two takes. -/
theorem played_inj (hl : l.popped.Pairwise (· < ·)) {m n i : Nat} (hm : 0 < m) (hn : 0 < n)
    (hi : l.played m = some i) (hj : l.played n = some i) : m = n := by
  rcases Nat.lt_trichotomy m n with hlt | heq | hlt
  · exact absurd (taken_lt hl (by omega) (takes_of_played hi) (takes_of_played hj))
      (Nat.lt_irrefl i)
  · exact heq
  · exact absurd (taken_lt hl (by omega) (takes_of_played hj) (takes_of_played hi))
      (Nat.lt_irrefl i)

/-! ### From one moment to a later one -/

/-- What is done later adds to the takes, and to the frames with no fewer takes before them. -/
theorem enter_all (es : List Entry) (l : Ledger) :
    l.takes <+: (es.foldl enter l).takes ∧
      ∃ later, (es.foldl enter l).heard = l.heard ++ later ∧ ∀ k ∈ later, l.takes.length ≤ k := by
  induction es generalizing l with
  | nil => exact ⟨List.prefix_rfl, [], (List.append_nil _).symm, nofun⟩
  | cons e es ih =>
    obtain ⟨htakes, later, hheard, hlater⟩ := ih (l.enter e)
    cases e with
    | pushed => exact ⟨htakes, later, hheard, hlater⟩
    | taken answer =>
      have hmore : l.takes <+: (l.enter (.taken answer)).takes := List.prefix_append ..
      exact ⟨hmore.trans htakes, later, hheard,
        fun k hk => Nat.le_trans hmore.length_le (hlater k hk)⟩
    | heard s =>
      refine ⟨htakes, l.takes.length :: later, ?_, ?_⟩
      · rw [List.append_cons]
        exact hheard
      · intro k hk
        rcases List.mem_cons.1 hk with rfl | hk
        · exact Nat.le_refl _
        · exact hlater k hk

/-- A frame is a sample that was pushed, or silence for a take that got none. -/
def Heard (l : Ledger) (s : Sample) (count : Nat) : Prop :=
  0 < count ∧ count ≤ l.takes.length ∧
    ((∃ i, l.played count = some i ∧ l.pushed[i]? = some s) ∨
      l.played count = none ∧ s = .silence)

end Ledger

namespace Player

/-! ### Logs of players -/

/-- The takes for an output. -/
def takeEntries : Nat → Player → List Entry
  | 0, _ => []
  | fuel + 1, p =>
    if Hold.one ≤ p.hold.phase then .taken p.queue.pop.1 :: takeEntries fuel p.take else []

/-- The takes for an output, and then the output. -/
def nextEntries (p : Player) : List Entry :=
  takeEntries (p.hold.phase / Hold.one) p ++ [.heard p.output]

def nextManyEntries : Nat → Player → List Entry
  | 0, _ => []
  | n + 1, p => p.nextEntries ++ nextManyEntries n p.advanced

/-- The frames of a buffer of `n` elements, counting one that is cut short. -/
def frameCount (channels n : Nat) : Nat := (n + channels - 1) / channels

def fillEntries (channels n : Nat) (p : Player) : List Entry :=
  p.nextManyEntries (frameCount channels n)

/-- A history of a player at a device's rate: bytes are pushed and buffers filled, in any order. -/
inductive Played (rate : Nat) : List Entry → Player → Prop where
  | start : Played rate [] (.ofRate rate)
  | push {es : List Entry} {p : Player} (h : Played rate es p) (bytes : List UInt8) :
      Played rate (es ++ [.pushed (bytes.map .ofByte) (p.push (bytes.map .ofByte)).2])
        (p.push (bytes.map .ofByte)).1
  | fill {es : List Entry} {p q : Player} {α : Type} {convert : Sample → α} {channels n : Nat}
      {out : List α} (h : Played rate es p) (hfill : p.fill? convert channels n = some (out, q)) :
      Played rate (es ++ p.fillEntries channels n) q

/-- The same, take by take and frame by frame: a frame is played when no sample is due. -/
inductive Logged (rate : Nat) : List Entry → Player → Prop where
  | start : Logged rate [] (.ofRate rate)
  | push {es : List Entry} {p : Player} (h : Logged rate es p) (new : List Sample) :
      Logged rate (es ++ [.pushed new (p.push new).2]) (p.push new).1
  | take {es : List Entry} {p : Player} (h : Logged rate es p) (hdue : Hold.one ≤ p.hold.phase) :
      Logged rate (es ++ [.taken p.queue.pop.1]) p.take
  | frame {es : List Entry} {p : Player} (h : Logged rate es p)
      (hdone : p.hold.phase < Hold.one) :
      Logged rate (es ++ [.heard p.hold.current]) { p with hold := p.hold.advance }

variable {rate : Nat} {es : List Entry} {p q : Player}

theorem Logged.single (h : Logged rate es p) : Single p.hold.phase := by
  induction h with
  | start => exact Hold.single_one
  | push _ new ih =>
    rw [hold_push]
    exact ih
  | take => exact single_take _
  | frame => exact single_round _

theorem Logged.steady (hrate : 0 < rate) (h : Logged rate es p) : p.hold.Steady := by
  induction h with
  | start => exact Hold.steady_ofRate hrate
  | push _ new ih =>
    rw [hold_push]
    exact ih
  | take _ _ ih => exact steady_take ih
  | frame _ hdone ih => exact ih.advance hdone

theorem Logged.catchUpWithin (h : Logged rate es p) (fuel : Nat) :
    Logged rate (es ++ takeEntries fuel p) (catchUpWithin fuel p) := by
  induction fuel generalizing es p with
  | zero =>
    rw [takeEntries, List.append_nil]
    exact h
  | succ fuel ih =>
    rw [takeEntries, Player.catchUpWithin]
    split
    next hdue =>
      rw [List.append_cons]
      exact ih (h.take hdue)
    next =>
      rw [List.append_nil]
      exact h

theorem Logged.next {s : Sample} (h : Logged rate es p) (hnext : p.next? = some (s, q)) :
    Logged rate (es ++ p.nextEntries) q := by
  obtain ⟨-, rfl, hdone⟩ := next?_eq_some h.single hnext
  rw [nextEntries, ← List.append_assoc]
  exact (h.catchUpWithin (p.hold.phase / Hold.one)).frame hdone

/-! ### Buffers -/

theorem frameCount_zero {channels : Nat} (h : 0 < channels) : frameCount channels 0 = 0 := by
  rw [frameCount, Nat.zero_add]
  exact Nat.div_eq_of_lt (Nat.sub_lt h Nat.one_pos)

theorem frameCount_pos {channels n : Nat} (h : 0 < channels) (hn : 0 < n) :
    frameCount channels n = frameCount channels (n - channels) + 1 := by
  have hfirst : n + channels - 1 = n - 1 + channels := by omega
  rw [frameCount, frameCount, hfirst, Nat.add_div_right _ h]
  congr 1
  by_cases hlt : channels ≤ n
  · rw [Nat.sub_add_cancel hlt]
  · have hlast : n - channels = 0 := by omega
    rw [hlast, Nat.div_eq_of_lt (by omega), Nat.div_eq_of_lt (by omega)]

theorem frames_takeEntries (fuel : Nat) (p : Player) : frames (takeEntries fuel p) = [] := by
  induction fuel generalizing p with
  | zero => rfl
  | succ fuel ih =>
    rw [takeEntries]
    split
    · exact ih p.take
    · rfl

theorem frames_nextManyEntries_succ (n : Nat) (p : Player) :
    frames (p.nextManyEntries (n + 1)) =
      p.output :: frames (p.advanced.nextManyEntries n) := by
  rw [nextManyEntries, nextEntries, frames, List.filterMap_append, List.filterMap_append,
    ← frames, ← frames, ← frames, frames_takeEntries]
  rfl

/-- The values of frames, each on every channel. -/
def spread {α : Type} (convert : Sample → α) (channels : Nat) (values : List Sample) : List α :=
  values.flatMap fun s => List.replicate channels (convert s)

section Buffer
variable {α : Type} {convert : Sample → α} {channels n : Nat} {out : List α}

theorem spread_cons (s : Sample) (values : List Sample) :
    spread convert channels (s :: values) =
      List.replicate channels (convert s) ++ spread convert channels values :=
  List.flatMap_cons

theorem take_spread_cons (s : Sample) (values : List Sample) :
    (spread convert channels (s :: values)).take n =
      List.replicate (min channels n) (convert s) ++
        (spread convert channels values).take (n - channels) := by
  rw [spread_cons, List.take_append, List.take_replicate, List.length_replicate, Nat.min_comm]

/-- Filling a buffer adds its takes and frames to the log. -/
theorem Logged.fillFrames {h : 0 < channels} (hp : Logged rate es p)
    (hfill : p.fillFrames? convert channels h n = some (out, q)) :
    Logged rate (es ++ p.fillEntries channels n) q ∧
      out = (spread convert channels (frames (p.fillEntries channels n))).take n := by
  induction n using Nat.strong_induction_on generalizing es p out with
  | _ n ih =>
    rw [fillFrames?] at hfill
    unfold fillEntries at ih ⊢
    by_cases hn : n = 0
    · subst hn
      rw [if_pos rfl] at hfill
      cases hfill
      rw [frameCount_zero h, nextManyEntries, List.append_nil]
      exact ⟨hp, rfl⟩
    · rw [if_neg hn] at hfill
      rw [frameCount_pos h (Nat.pos_of_ne_zero hn)]
      split at hfill
      next => cases hfill
      next s r hnext =>
        obtain ⟨⟨rest, last⟩, hrest, heq⟩ := Option.map_eq_some_iff.1 hfill
        cases heq
        obtain ⟨hlogged, rfl⟩ := ih (n - channels) (by omega) (hp.next hnext) hrest
        obtain ⟨rfl, rfl, -⟩ := next?_eq_some hp.single hnext
        rw [frames_nextManyEntries_succ, take_spread_cons]
        rw [List.append_assoc] at hlogged
        exact ⟨hlogged, rfl⟩

/-- A buffer is its frames, each on every channel, as far as there is room. -/
theorem fillFrames?_eq (convert : Sample → α) (h : 0 < channels) (n : Nat)
    (hp : p.hold.Steady) :
    p.fillFrames? convert channels h n =
      some ((spread convert channels (nextMany (frameCount channels n) p).1).take n,
        (nextMany (frameCount channels n) p).2) := by
  induction n using Nat.strong_induction_on generalizing p with
  | _ n ih =>
    rw [fillFrames?]
    by_cases hn : n = 0
    · subst hn
      rw [if_pos rfl, frameCount_zero h]
      rfl
    · rw [if_neg hn, frameCount_pos h (Nat.pos_of_ne_zero hn), next?_of_steady hp,
        nextMany_succ hp, take_spread_cons]
      simp only [ih (n - channels) (by omega) (steady_advanced hp), Option.map_some]

theorem fillFrames?_of_fill? (hfill : p.fill? convert channels n = some (out, q)) :
    ∃ h : 0 < channels, p.fillFrames? convert channels h n = some (out, q) := by
  unfold fill? at hfill
  split at hfill
  next h => exact ⟨h, hfill⟩
  next => cases hfill

end Buffer

/-- A history is one of takes and frames. -/
theorem Played.logged (h : Played rate es p) : Logged rate es p := by
  induction h with
  | start => exact .start
  | push _ bytes ih => exact ih.push (bytes.map .ofByte)
  | fill _ hfill ih =>
    obtain ⟨_, hfill⟩ := fillFrames?_of_fill? hfill
    exact (ih.fillFrames hfill).1

/-! ### What is heard -/

/-- The player has kept to the ledger of its log: it holds what its last take got, and each frame
was what the last take before it had got. -/
structure Playing (es : List Entry) (p : Player) : Prop where
  sound : Sound es p.queue
  current : (ledger es).takes = [] ∧ Hold.one ≤ p.hold.phase ∨
    0 < (ledger es).takes.length ∧ p.hold.current = (ledger es).value (ledger es).takes.length
  values : frames es = (ledger es).heard.map (ledger es).value
  counts : ∀ k ∈ (ledger es).heard, 0 < k ∧ k ≤ (ledger es).takes.length
  order : (ledger es).heard.Pairwise (· ≤ ·)

theorem playing_start : Playing [] (.ofRate rate) where
  sound := sound_empty
  current := .inl ⟨rfl, Nat.le_refl _⟩
  values := rfl
  counts := nofun
  order := .nil

theorem Playing.push (h : Playing es p) (new : List Sample) :
    Playing (es ++ [.pushed new (p.push new).2]) (p.push new).1 := by
  have hpopped : ∀ i ∈ (ledger es).popped, i < (ledger es).pushed.length := fun i hi =>
    Nat.lt_of_lt_of_le (h.sound.lt_left hi) h.sound.left_le
  have hvalue : (ledger (es ++ [.pushed new (p.push new).2])).value = (ledger es).value := by
    funext k
    rw [ledger_concat, Ledger.value_pushed hpopped]
  refine ⟨h.sound.push new, ?_, ?_, ?_, ?_⟩
  · rw [hvalue, ledger_concat, hold_push]
    exact h.current
  · rw [hvalue, ledger_concat, frames_concat]
    exact (List.append_nil _).trans h.values
  · rw [ledger_concat]
    exact h.counts
  · rw [ledger_concat]
    exact h.order

/-- The next take is another one than those that were heard. -/
theorem Playing.take (h : Playing es p) : Playing (es ++ [.taken p.queue.pop.1]) p.take := by
  have hlast := Ledger.value_last h.sound.sample?_pop
  have hlength : (ledger (es ++ [.taken p.queue.pop.1])).takes.length =
      (ledger es).takes.length + 1 := by
    rw [ledger_concat]
    exact List.length_append
  refine ⟨h.sound.take, .inr ⟨?_, ?_⟩, ?_, ?_, ?_⟩
  · rw [hlength]
    exact Nat.succ_pos _
  · rw [hlength, ledger_concat, hlast, hold_take]
    rfl
  · rw [ledger_concat, frames_concat, h.values]
    show _ ++ [] = (ledger es).heard.map _
    rw [List.append_nil]
    apply List.map_congr_left
    intro k hk
    obtain ⟨hpos, hle⟩ := h.counts k hk
    exact (Ledger.value_taken hpos hle _).symm
  · intro k hk
    rw [ledger_concat] at hk
    obtain ⟨hpos, hle⟩ := h.counts k hk
    rw [hlength]
    exact ⟨hpos, Nat.le_succ_of_le hle⟩
  · rw [ledger_concat]
    exact h.order

/-- A frame is played after the takes of all frames before it. -/
theorem Playing.frame (h : Playing es p) (hdone : p.hold.phase < Hold.one) :
    Playing (es ++ [.heard p.hold.current]) { p with hold := p.hold.advance } := by
  obtain ⟨hpos, hcurrent⟩ : 0 < (ledger es).takes.length ∧
      p.hold.current = (ledger es).value (ledger es).takes.length := by
    rcases h.current with ⟨-, hdue⟩ | hheld
    · exact absurd hdue (Nat.not_le.2 hdone)
    · exact hheld
  refine ⟨h.sound.heard p.hold.current, .inr ?_, ?_, ?_, ?_⟩ <;> rw [ledger_concat]
  · exact ⟨hpos, hcurrent⟩
  · rw [frames_concat, h.values, hcurrent]
    show _ ++ [_] = ((ledger es).heard ++ [(ledger es).takes.length]).map (ledger es).value
    rw [List.map_append]
    rfl
  · intro k hk
    rcases List.mem_append.1 hk with hk | hk
    · exact h.counts k hk
    · rw [List.mem_singleton.1 hk]
      exact ⟨hpos, Nat.le_refl _⟩
  · show ((ledger es).heard ++ [(ledger es).takes.length]).Pairwise _
    rw [List.pairwise_append]
    refine ⟨h.order, List.pairwise_singleton .., fun k hk n hn => ?_⟩
    rw [List.mem_singleton.1 hn]
    exact (h.counts k hk).2

theorem Logged.playing (h : Logged rate es p) : Playing es p := by
  induction h with
  | start => exact playing_start
  | push _ new ih => exact ih.push new
  | take _ _ ih => exact ih.take
  | frame _ hdone ih => exact ih.frame hdone

/-! ### Moments of a log -/

/-- A log was one before each of its entries. -/
theorem Logged.of_prefix (h : Logged rate es p) {before : List Entry} (hbefore : before <+: es) :
    ∃ q, Logged rate before q := by
  induction h with
  | start =>
    rw [List.prefix_nil.1 hbefore]
    exact ⟨_, .start⟩
  | push h new ih =>
    rcases List.prefix_concat_iff.1 hbefore with rfl | hbefore
    · exact ⟨_, h.push new⟩
    · exact ih hbefore
  | take h hdue ih =>
    rcases List.prefix_concat_iff.1 hbefore with rfl | hbefore
    · exact ⟨_, h.take hdue⟩
    · exact ih hbefore
  | frame h hdone ih =>
    rcases List.prefix_concat_iff.1 hbefore with rfl | hbefore
    · exact ⟨_, h.frame hdone⟩
    · exact ih hbefore

theorem Logged.of_taken {answer : Option Sample} (h : Logged rate (es ++ [.taken answer]) p) :
    ∃ q, Logged rate es q ∧ answer = q.queue.pop.1 := by
  generalize hlog : es ++ [.taken answer] = log at h
  cases h with
  | start => exact absurd hlog (List.append_ne_nil_of_right_ne_nil _ (List.cons_ne_nil _ _))
  | push => cases (List.append_singleton_inj.1 hlog).2
  | take h =>
    obtain ⟨rfl, hanswer⟩ := List.append_singleton_inj.1 hlog
    cases hanswer
    exact ⟨_, h, rfl⟩
  | frame => cases (List.append_singleton_inj.1 hlog).2

/-- Silence is taken where nothing is queued. -/
theorem Logged.underrun {before after : List Entry}
    (h : Logged rate (before ++ .taken none :: after) p) : (ledger before).queued = [] := by
  have hbefore : before ++ [.taken none] <+: before ++ .taken none :: after :=
    ⟨after, List.append_assoc ..⟩
  obtain ⟨q, hq⟩ := h.of_prefix hbefore
  obtain ⟨q, hq, hanswer⟩ := hq.of_taken
  have hempty : q.queue.size = 0 := by
    rw [Queue.pop_fst] at hanswer
    exact List.length_eq_zero_iff.2 (List.head?_eq_none_iff.1 hanswer.symm)
  rw [Ledger.queued, ← hq.playing.sound.size_eq, hempty]
  rfl

/-- A sample after which another was taken, or silence, is not heard again. -/
theorem Playing.gone {before after : List Entry} (h : Playing (before ++ after) p) {i : Nat}
    (hi : some i ∈ (ledger before).takes.dropLast) :
    some i ∉ (ledger (before ++ after)).plays.drop (ledger before).plays.length := by
  have hledger : ledger (before ++ after) = after.foldl Ledger.enter (ledger before) :=
    List.foldl_append
  obtain ⟨htakes, later, hheard, hlater⟩ := Ledger.enter_all after (ledger before)
  rw [← hledger] at htakes hheard
  have hrest : (ledger (before ++ after)).plays.drop (ledger before).plays.length =
      later.map (ledger (before ++ after)).played := by
    rw [Ledger.plays, Ledger.plays, hheard, List.map_append]
    exact List.drop_left' ((List.length_map ..).trans (List.length_map ..).symm)
  rw [hrest]
  intro hmem
  obtain ⟨k, hk, hplayed⟩ := List.mem_map.1 hmem
  obtain ⟨m, hm⟩ := List.mem_iff_getElem?.1 hi
  rw [List.dropLast_eq_take, List.getElem?_take] at hm
  split at hm
  next hlt =>
    have hearlier : (ledger (before ++ after)).takes[m]? = some (some i) := by
      obtain ⟨rest, hrest⟩ := htakes
      rw [← hrest, List.getElem?_append_left (by omega)]
      exact hm
    have hlast := hlater k hk
    -- The frame would play a take that comes after the one that got the sample.
    exact Nat.lt_irrefl i
      (Ledger.taken_lt h.sound.sorted (by omega) hearlier (Ledger.takes_of_played hplayed))
  next => cases hm

/-! ### The whole history -/

theorem Playing.heard (h : Playing es p) :
    List.Forall₂ (ledger es).Heard (frames es) (ledger es).heard := by
  rw [h.values, List.forall₂_map_left_iff, List.forall₂_same]
  intro k hk
  obtain ⟨hpos, hle⟩ := h.counts k hk
  refine ⟨hpos, hle, ?_⟩
  rw [Ledger.value]
  cases hplayed : (ledger es).played k with
  | none => exact .inr ⟨rfl, rfl⟩
  | some i =>
    have htaken : i ∈ (ledger es).popped :=
      List.reduceOption_mem_iff.2 (List.mem_of_getElem? (Ledger.takes_of_played hplayed))
    have hlt := Nat.lt_of_lt_of_le (h.sound.lt_left htaken) h.sound.left_le
    refine .inl ⟨i, rfl, ?_⟩
    show (ledger es).pushed[i]? = some ((ledger es).pushed[i]?.getD .silence)
    rw [List.getElem?_eq_getElem hlt]
    rfl

/-- The frames play samples in the order in which these were pushed. -/
theorem Playing.plays_sorted (h : Playing es p) :
    (ledger es).plays.reduceOption.Pairwise (· ≤ ·) := by
  rw [List.reduceOption, List.pairwise_filterMap, Ledger.plays, List.pairwise_map]
  apply h.order.imp_of_mem
  intro m n hm _ hmn i hi j hj
  exact Ledger.played_le h.sound.sorted (h.counts m hm).1 hmn hi hj

/-- Between two frames that play a sample no other is played. -/
theorem Playing.contiguous (h : Playing es p) {a b c i : Nat} (hab : a ≤ b) (hbc : b ≤ c)
    (ha : (ledger es).plays[a]? = some (some i)) (hc : (ledger es).plays[c]? = some (some i)) :
    (ledger es).plays[b]? = some (some i) := by
  rw [Ledger.plays, List.getElem?_map, Option.map_eq_some_iff] at ha hc
  obtain ⟨m, hm, hplayed⟩ := ha
  obtain ⟨n, hn, hplayed'⟩ := hc
  obtain ⟨ha, rfl⟩ := List.getElem?_eq_some_iff.1 hm
  obtain ⟨hc, rfl⟩ := List.getElem?_eq_some_iff.1 hn
  have hb : b < (ledger es).heard.length := Nat.lt_of_le_of_lt hbc hc
  have hsame := Ledger.played_inj h.sound.sorted (h.counts _ (List.getElem_mem ha)).1
    (h.counts _ (List.getElem_mem hc)).1 hplayed hplayed'
  have hfirst := h.order.rel_get_of_le (a := ⟨a, ha⟩) (b := ⟨b, hb⟩) hab
  have hsecond := h.order.rel_get_of_le (a := ⟨b, hb⟩) (b := ⟨c, hc⟩) hbc
  have hbetween : (ledger es).heard[b] = (ledger es).heard[a] :=
    Nat.le_antisymm (hsame ▸ hsecond) hfirst
  rw [Ledger.plays, List.getElem?_map, List.getElem?_eq_getElem hb, Option.map_some, hbetween,
    hplayed]

/-- What a history of a player comes to, sample by sample and frame by frame. -/
structure Faithful (es : List Entry) (p : Player) : Prop where
  /-- The queue holds what was neither taken nor dropped. -/
  conserved : Queue.Conserved es p.queue
  once : (ledger es).popped.Nodup
  heard : List.Forall₂ (ledger es).Heard (frames es) (ledger es).heard
  underrun : ∀ before after, es = before ++ .taken none :: after → (ledger before).queued = []
  order : (ledger es).plays.reduceOption.Pairwise (· ≤ ·)
  contiguous : ∀ a b c i : Nat, a ≤ b → b ≤ c → (ledger es).plays[a]? = some (some i) →
    (ledger es).plays[c]? = some (some i) → (ledger es).plays[b]? = some (some i)
  gone : ∀ before after i, es = before ++ after → some i ∈ (ledger before).takes.dropLast →
    some i ∉ (ledger es).plays.drop (ledger before).plays.length

/-- **Playing neither reorders, repeats nor invents sound.** However pushes and buffers
alternate, each frame is a sample that was pushed, or silence for a take that found nothing
queued. Samples are heard in order, each in frames that follow one another, none after a later
take, and they are taken once at most; what is neither taken nor dropped is queued. A buffer
has these frames on all its channels, and for a device that wants any samples it is filled. -/
theorem playback_is_faithful (h : Played rate es p) :
    Faithful es p ∧ ∀ (α : Type) (convert : Sample → α) (channels n : Nat), 0 < channels →
      (0 < rate → ∃ out q, p.fill? convert channels n = some (out, q)) ∧
      ∀ out q, p.fill? convert channels n = some (out, q) →
        out = ((frames (p.fillEntries channels n)).flatMap fun s =>
          List.replicate channels (convert s)).take n := by
  have hlogged := h.logged
  have hplaying := hlogged.playing
  have hsound := hplaying.sound
  refine ⟨?_, fun α convert channels n hchannels => ⟨fun hrate => ?_, fun out q hfill => ?_⟩⟩
  · refine ⟨hsound.conserved, hsound.sorted.nodup, hplaying.heard, ?_, hplaying.plays_sorted, ?_,
      ?_⟩
    · rintro before after rfl
      exact hlogged.underrun
    · intro a b c i hab hbc
      exact hplaying.contiguous hab hbc
    · rintro before after i rfl
      exact hplaying.gone
  · exact ⟨_, _, (dif_pos hchannels).trans (fillFrames?_eq _ hchannels n (hlogged.steady hrate))⟩
  · obtain ⟨_, hfill⟩ := fillFrames?_of_fill? hfill
    exact (hlogged.fillFrames hfill).2

/-- A player at the machine's own rate that was given one byte. -/
def brief : Player := ((ofRate sourceRate).push [64]).1

/-- One byte is heard in the first of two frames, and silence in the other. Another buffer can
be filled after that. -/
theorem brief_sound_is_faithful :
    ∃ es p, Played sourceRate es p ∧ (ledger es).plays = [some 0, none] ∧ Faithful es p ∧
      ∃ out q, p.fill? id 1 1 = some (out, q) := by
  have hpushed : Played sourceRate [.pushed [64] 0] brief := Played.start.push [64]
  have hsteady : brief.hold.Steady := Hold.steady_ofRate (by decide)
  have hfill : brief.fill? id 2 3 = some (_, _) :=
    (dif_pos (by decide)).trans (fillFrames?_eq id (by decide) 3 hsteady)
  have hplayed := hpushed.fill hfill
  obtain ⟨hfaithful, hbuffers⟩ := playback_is_faithful hplayed
  refine ⟨_, _, hplayed, ?_, hfaithful, (hbuffers _ id 1 1 (by decide)).1 (by decide)⟩
  decide +kernel

end Player

end ByteByteJump.Audio
