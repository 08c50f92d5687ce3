import Mathlib.Data.List.Basic
import Mathlib.Data.List.Induction
import ByteByteJump.Proofs.Pacer.Origin

/-! Calls in any order.

Nothing holds a caller to one start and one question for each frame, or to a clock
that goes forward. So a history here is any list of calls, at any instants, and what
the next question is told is read off it.

With truncated pacing only the latest start matters. With exact pacing a history has
an anchor (`Anchor`), and the deadlines are a period apart from there on, one for each
question since, whatever starts come between (`origin_after`). A start sets the anchor
if it is the first call of all or if an overrun was counted since the start before it;
that is what the two fields of the pacer, its deadline and its flag, remember of a
history (`deadline_after_eq_none_iff`, `overran_after_iff`). `closed_form` is all of
this in one. -/
namespace ByteByteJump.Pacer

/-- A frame starts, or its work is done and what remains of its period is asked for. -/
inductive Call where
  | start (now : Nat)
  | remaining (now : Nat)
deriving DecidableEq, Repr

namespace Call

/-- The instant of a start. -/
def start? : Call → Option Nat
  | start now => some now
  | remaining _ => none

def isRemaining : Call → Bool
  | start _ => false
  | remaining _ => true

end Call

/-- How many of the calls ask what remains. -/
def questions (calls : List Call) : Nat := calls.countP Call.isRemaining

/-- The latest start of a history, or else the instant before it all. -/
def latestStart (made : Nat) (history : List Call) : Nat :=
  (history.filterMap Call.start?).getLast?.getD made

/-- The first call of a history, if it is a start, or else the instant before it all. -/
def firstStart (made : Nat) : List Call → Nat
  | .start now :: _ => now
  | _ => made

def call (p : Pacer) : Call → Pacer
  | .start now => p.start now
  | .remaining now => (p.remaining now).1

/-- The pacer after a history. -/
def after (p : Pacer) (history : List Call) : Pacer := history.foldl call p

/-- A call is counted as an overrun. -/
def Counts (p : Pacer) (c : Call) : Prop := p.overruns < (p.call c).overruns

/-- An overrun was counted since the latest start of a history, or in all of it if there
is no start. -/
def CountedSinceStart (p : Pacer) (history : List Call) : Prop :=
  ∃ before c rest, history = before ++ c :: rest ∧ (∀ now, .start now ∉ rest) ∧
    (p.after before).Counts c

/-- A start after this history sets the anchor. -/
def SetsAnchor (p : Pacer) (history : List Call) : Prop :=
  history = [] ∨ p.CountedSinceStart history

/-- The anchor of a history with exact pacing, and the calls since: the latest start that
sets it, or else the instant the pacer was made. -/
structure Anchor (made : Nat) (history : List Call) (a : Nat) (since : List Call) : Prop where
  origin : (a = made ∧ since = history) ∨
    ∃ before, history = before ++ .start a :: since ∧ (new .exact made).SetsAnchor before
  latest : ∀ before now rest, history = before ++ .start now :: rest →
    (new .exact made).SetsAnchor before → since <:+ rest

/-- What a question is told of a frame that is due at an instant: the time left, which is
none from then on, with an overrun counted only later than that. -/
structure Told (p : Pacer) (now due : Nat) : Prop where
  left : ((p.remaining now).2.1 : Int) = max 0 ((due : Int) - now)
  counted : (p.remaining now).1.overruns = p.overruns + if due < now then 1 else 0

variable {p : Pacer} {pacing : Pacing} {made now a : Nat} {c : Call}
  {history before rest since : List Call}

@[simp] theorem after_nil (p : Pacer) : p.after [] = p := rfl

@[simp] theorem after_append (p : Pacer) (history calls : List Call) :
    p.after (history ++ calls) = (p.after history).after calls := List.foldl_append

@[simp] theorem after_singleton (p : Pacer) (c : Call) : p.after [c] = p.call c := rfl

@[simp] theorem questions_append (calls more : List Call) :
    questions (calls ++ more) = questions calls + questions more := List.countP_append

/-! ### One call -/

theorem not_counts_start : ¬ p.Counts (.start now) := Nat.lt_irrefl _

theorem counts_remaining_iff : p.Counts (.remaining now) ↔ p.Overdue now :=
  overruns_lt_remaining_iff

theorem overruns_le_call (p : Pacer) (c : Call) : p.overruns ≤ (p.call c).overruns := by
  cases c with
  | start now => exact Nat.le_refl _
  | remaining now =>
    rw [call, overruns_remaining]
    exact Nat.le_add_right _ _

/-- With exact pacing the origin goes on by a period. -/
theorem origin_remaining (hp : p.pacing = .exact) :
    (p.remaining now).1.origin = p.origin + p.pacing.period := by
  rw [origin, pacing_remaining, if_pos hp, deadline_remaining, if_pos hp]
  rfl

theorem told (p : Pacer) (hp : p.pacing ≠ .unlimited) (now : Nat) :
    p.Told now (p.origin + p.pacing.period) where
  left := by
    rw [left_remaining, if_neg hp]
    omega
  counted := by
    rw [overruns_remaining]
    simp only [Overdue, hp, ne_eq, not_false_eq_true, true_and]

/-! ### What the pacer remembers -/

@[simp] theorem pacing_after : (p.after history).pacing = p.pacing := by
  induction history using List.reverseRecOn with
  | nil => rfl
  | append_singleton history c ih =>
    rw [after_append, after_singleton]
    cases c with
    | start now => exact ih
    | remaining now => rw [call, pacing_remaining, ih]

theorem overruns_le_after (p : Pacer) (history : List Call) :
    p.overruns ≤ (p.after history).overruns := by
  induction history using List.reverseRecOn with
  | nil => exact Nat.le_refl _
  | append_singleton history c ih =>
    rw [after_append, after_singleton]
    exact Nat.le_trans ih (overruns_le_call _ c)

/-- The latest start is what the pacer keeps of all the starts. -/
theorem frameStart_after : (p.after history).frameStart = latestStart p.frameStart history := by
  induction history using List.reverseRecOn with
  | nil => rfl
  | append_singleton history c ih =>
    rw [after_append, after_singleton]
    cases c with
    | start now => simp [call, latestStart, Call.start?]
    | remaining now =>
      rw [call, frameStart_remaining, ih]
      simp [latestStart, Call.start?]

/-- A history and one call more splits at that call or before it. -/
theorem snoc_eq_append_cons_iff {d : Call} :
    history ++ [d] = before ++ c :: rest ↔
      (history = before ∧ d = c ∧ rest = []) ∨
        ∃ rest', rest = rest' ++ [d] ∧ history = before ++ c :: rest' := by
  obtain rfl | ⟨rest', e, rfl⟩ := rest.eq_nil_or_concat'
  · simp
  · rw [← List.cons_append, ← List.append_assoc, List.append_singleton_inj]
    constructor
    · rintro ⟨rfl, rfl⟩
      exact .inr ⟨rest', rfl, rfl⟩
    · rintro (⟨-, -, hrest⟩ | ⟨rest'', hrest, rfl⟩)
      · simp at hrest
      · obtain ⟨rfl, rfl⟩ := List.append_singleton_inj.1 hrest
        exact ⟨rfl, rfl⟩

theorem not_countedSinceStart_nil : ¬ p.CountedSinceStart [] := by
  rintro ⟨before, c, rest, hsplit, -⟩
  simp at hsplit

theorem not_countedSinceStart_start : ¬ p.CountedSinceStart (history ++ [.start now]) := by
  rintro ⟨before, c, rest, hsplit, hrest, hcounts⟩
  obtain ⟨-, rfl, -⟩ | ⟨rest', rfl, -⟩ := snoc_eq_append_cons_iff.1 hsplit
  · exact not_counts_start hcounts
  · exact hrest now (by simp)

theorem countedSinceStart_remaining_iff :
    p.CountedSinceStart (history ++ [.remaining now]) ↔
      p.CountedSinceStart history ∨ (p.after history).Overdue now := by
  rw [← counts_remaining_iff]
  constructor
  · rintro ⟨before, c, rest, hsplit, hrest, hcounts⟩
    obtain ⟨rfl, rfl, -⟩ | ⟨rest', rfl, hbefore⟩ := snoc_eq_append_cons_iff.1 hsplit
    · exact .inr hcounts
    · exact .inl ⟨before, c, rest', hbefore,
        fun t ht => hrest t (List.mem_append_left _ ht), hcounts⟩
  · rintro (⟨before, c, rest, rfl, hrest, hcounts⟩ | hcounts)
    · exact ⟨before, c, rest ++ [.remaining now], by simp, by simpa using hrest, hcounts⟩
    · exact ⟨history, .remaining now, [], rfl, by simp, hcounts⟩

/-- The flag tells that an overrun was counted since the latest start. -/
theorem overran_after_iff (hp : p.overran = false) :
    (p.after history).overran = true ↔ p.CountedSinceStart history := by
  induction history using List.reverseRecOn with
  | nil => simp [hp, not_countedSinceStart_nil]
  | append_singleton history c ih =>
    rw [after_append, after_singleton]
    cases c with
    | start now => simp [call, not_countedSinceStart_start]
    | remaining now =>
      rw [call, overran_remaining, countedSinceStart_remaining_iff, ← ih, Bool.or_eq_true,
        decide_eq_true_iff]

/-- The deadline tells, with exact pacing, that there was a call. -/
theorem deadline_after_eq_none_iff (hp : p.pacing = .exact) (hnew : p.deadline = none) :
    (p.after history).deadline = none ↔ history = [] := by
  induction history using List.reverseRecOn with
  | nil => simp [hnew]
  | append_singleton history c ih =>
    have hpacing : (p.after history).pacing = .exact := pacing_after.trans hp
    rw [after_append, after_singleton]
    refine iff_of_false ?_ (by simp)
    cases c with
    | start now =>
      rw [call, deadline_start, hpacing]
      split
      · simp
      next hkept => exact fun hnone => hkept ⟨rfl, .inl hnone⟩
    | remaining now =>
      rw [call, deadline_remaining, if_pos hpacing]
      simp

/-- A count of nothing means that no call was counted. -/
theorem not_countedSinceStart (h : (p.after (history ++ rest)).overruns = 0) :
    ¬ p.CountedSinceStart history := by
  rintro ⟨before, c, since, rfl, -, hcounts⟩
  have hcall : p.after (before ++ c :: since ++ rest) =
      ((p.after before).call c).after (since ++ rest) := by
    rw [List.append_assoc, after_append]
    rfl
  have hle := overruns_le_after ((p.after before).call c) (since ++ rest)
  rw [← hcall, h] at hle
  unfold Counts at hcounts
  omega

/-! ### The anchor -/

namespace Anchor

theorem nil : Anchor made [] made [] := ⟨.inl ⟨rfl, rfl⟩, by simp⟩

/-- A start that sets the anchor is the anchor. -/
theorem start (h : (new .exact made).SetsAnchor history) :
    Anchor made (history ++ [.start now]) now [] :=
  ⟨.inr ⟨history, rfl, h⟩, fun _ _ _ _ _ => List.nil_suffix⟩

/-- Any other call leaves it where it is. -/
theorem snoc (h : Anchor made history a since)
    (hc : ∀ now, c = .start now → ¬ (new .exact made).SetsAnchor history) :
    Anchor made (history ++ [c]) a (since ++ [c]) where
  origin := by
    obtain ⟨rfl, rfl⟩ | ⟨before, rfl, hbefore⟩ := h.origin
    · exact .inl ⟨rfl, rfl⟩
    · exact .inr ⟨before, by simp, hbefore⟩
  latest before now rest hsplit hbefore := by
    obtain ⟨rfl, hstart, -⟩ | ⟨rest', rfl, hearlier⟩ := snoc_eq_append_cons_iff.1 hsplit
    · exact absurd hbefore (hc now hstart)
    · exact List.suffix_append_self_iff.2 (h.latest before now rest' hearlier hbefore)

/-- Where a start sets the anchor, the calls since are not the whole history. -/
theorem length_lt (h : Anchor made history a since)
    (hsplit : history = before ++ .start now :: rest)
    (hbefore : (new .exact made).SetsAnchor before) : since.length < history.length := by
  have hle := (h.latest before now rest hsplit hbefore).length_le
  rw [hsplit, List.length_append, List.length_cons]
  omega

/-- A history has one anchor only. -/
theorem unique {b : Nat} (h : Anchor made history a since) (h' : Anchor made history b rest) :
    b = a ∧ rest = since := by
  obtain ⟨rfl, rfl⟩ | ⟨before, hsplit, hbefore⟩ := h.origin
  · obtain ⟨rfl, rfl⟩ | ⟨before', hsplit', hbefore'⟩ := h'.origin
    · exact ⟨rfl, rfl⟩
    · exact absurd (h.length_lt hsplit' hbefore') (Nat.lt_irrefl _)
  · obtain ⟨rfl, rfl⟩ | ⟨before', hsplit', hbefore'⟩ := h'.origin
    · exact absurd (h'.length_lt hsplit hbefore) (Nat.lt_irrefl _)
    · have hrest : rest = since :=
        (h'.latest _ _ _ hsplit hbefore).eq_of_length_le
          (h.latest _ _ _ hsplit' hbefore').length_le
      subst hrest
      have hcons := List.append_inj_right' (hsplit'.symm.trans hsplit) rfl
      exact ⟨Call.start.inj (List.cons.inj hcons).1, rfl⟩

/-- As long as nothing is counted the anchor stays where the history begins. -/
theorem steady (h : ((new .exact made).after history).overruns = 0) :
    ∃ since, Anchor made history (firstStart made history) since ∧
      questions since = questions history := by
  have hfirst {before rest : List Call} (hsplit : history = before ++ rest)
      (hbefore : (new .exact made).SetsAnchor before) : before = [] :=
    hbefore.resolve_right (not_countedSinceStart (hsplit ▸ h))
  match history with
  | [] => exact ⟨[], nil, rfl⟩
  | .start now :: calls =>
    refine ⟨calls, ⟨.inr ⟨[], rfl, .inl rfl⟩, fun before t rest hsplit hbefore => ?_⟩, ?_⟩
    · obtain rfl := hfirst hsplit hbefore
      cases hsplit
      exact List.suffix_rfl
    · simp [questions, Call.isRemaining]
  | .remaining now :: calls =>
    refine ⟨_, ⟨.inl ⟨rfl, rfl⟩, fun before t rest hsplit hbefore => ?_⟩, rfl⟩
    obtain rfl := hfirst hsplit hbefore
    cases hsplit

end Anchor

/-- A start after a history goes by its own instant if it sets the anchor. -/
theorem origin_start_of_setsAnchor (h : (new .exact made).SetsAnchor history) :
    (((new .exact made).after history).start now).origin = now := by
  obtain rfl | hcounted := h
  · rfl
  · have hover := (overran_after_iff rfl).2 hcounted
    rw [origin_start, if_neg (by simp [hover])]

/-- Else it goes by what the pacer goes by already. -/
theorem origin_start_of_not_setsAnchor (h : ¬ (new .exact made).SetsAnchor history) :
    (((new .exact made).after history).start now).origin =
      ((new .exact made).after history).origin := by
  have hover : ((new .exact made).after history).overran = false :=
    Bool.eq_false_iff.2 fun hover => h (.inr ((overran_after_iff rfl).1 hover))
  have hdeadline : ((new .exact made).after history).deadline ≠ none :=
    fun hnone => h (.inl ((deadline_after_eq_none_iff rfl rfl).1 hnone))
  obtain ⟨d, hd⟩ := Option.ne_none_iff_exists'.1 hdeadline
  have hpacing : ((new .exact made).after history).pacing = .exact := pacing_after
  rw [origin_start, if_pos ⟨hpacing, hover⟩, origin, if_pos hpacing, hd]
  rfl

/-- Every history has an anchor, and with exact pacing the deadlines are a period apart from
there on. -/
theorem origin_after (made : Nat) (history : List Call) :
    ∃ a since, Anchor made history a since ∧
      ((new .exact made).after history).origin = a + questions since * Pacing.exact.period := by
  induction history using List.reverseRecOn with
  | nil => exact ⟨made, [], .nil, rfl⟩
  | append_singleton history c ih =>
    obtain ⟨a, since, hanchor, horigin⟩ := ih
    rw [after_append, after_singleton]
    cases c with
    | start now =>
      by_cases hset : (new .exact made).SetsAnchor history
      · refine ⟨now, [], .start hset, ?_⟩
        rw [call, origin_start_of_setsAnchor hset]
        simp [questions]
      · refine ⟨a, _, hanchor.snoc fun _ _ => hset, ?_⟩
        rw [call, origin_start_of_not_setsAnchor hset, horigin]
        simp [questions, Call.isRemaining]
    | remaining now =>
      refine ⟨a, _, hanchor.snoc nofun, ?_⟩
      rw [call, origin_remaining pacing_after, horigin, pacing_after, questions_append]
      simp [questions, Call.isRemaining, Nat.add_mul, Nat.add_assoc]

/-! ### Any history -/

/-- What the calls after a history do, with the due time of a question for each pacing. -/
structure ClosedForm (pacing : Pacing) (made : Nat) (history : List Call) : Prop where
  truncated : pacing = .truncated → ∀ now,
    ((new pacing made).after history).Told now (latestStart made history + 16000000)
  exact : pacing = .exact → ∃ a since, Anchor made history a since ∧
    (∀ b rest, Anchor made history b rest → b = a ∧ rest = since) ∧
    ∀ now, ((new pacing made).after history).Told now (a + (questions since + 1) * 16666666)
  /-- Late starts move no deadline while nothing is counted. -/
  steady : pacing = .exact → ((new pacing made).after history).overruns = 0 → ∀ now,
    ((new pacing made).after history).Told now
      (firstStart made history + (questions history + 1) * 16666666)
  unlimited : pacing = .unlimited → ∀ now,
    (((new pacing made).after history).remaining now).2.1 = 0 ∧
      ¬ ((new pacing made).after history).Counts (.remaining now)
  starts : ∀ now, ¬ ((new pacing made).after history).Counts (.start now)

/-- With exact pacing a question is told of one period more than was asked for since the
anchor. -/
theorem told_of_anchor (h : Anchor made history a since) (now : Nat) :
    ((new .exact made).after history).Told now (a + (questions since + 1) * 16666666) := by
  obtain ⟨b, rest, hanchor, horigin⟩ := origin_after made history
  obtain ⟨rfl, rfl⟩ := h.unique hanchor
  have hpacing : ((new .exact made).after history).pacing = .exact := pacing_after
  have hdue := told ((new .exact made).after history) (by simp) now
  rw [horigin, hpacing, Nat.add_assoc, ← Nat.succ_mul] at hdue
  exact hdue

/-- **What a question is told is read off the history**, whatever the order of the calls and
whatever their instants. -/
theorem closed_form (pacing : Pacing) (made : Nat) (history : List Call) :
    ClosedForm pacing made history where
  truncated := by
    rintro rfl now
    have hpacing : ((new .truncated made).after history).pacing = .truncated := pacing_after
    have hdue := told ((new .truncated made).after history) (by simp) now
    rw [origin, hpacing, if_neg nofun, frameStart_after] at hdue
    exact hdue
  exact := by
    rintro rfl
    obtain ⟨a, since, hanchor, -⟩ := origin_after made history
    exact ⟨a, since, hanchor, fun b rest => hanchor.unique, told_of_anchor hanchor⟩
  steady := by
    rintro rfl hnone now
    obtain ⟨since, hanchor, hquestions⟩ := Anchor.steady hnone
    rw [← hquestions]
    exact told_of_anchor hanchor now
  unlimited := by
    rintro rfl now
    have hpacing : ((new .unlimited made).after history).pacing = .unlimited := pacing_after
    rw [left_remaining, if_pos hpacing, counts_remaining_iff]
    exact ⟨rfl, fun h => h.1 hpacing⟩
  starts _ := not_counts_start

/-- An overrun is not forgotten for a question that was in time after it: the start sets the
anchor. -/
example :
    (((new .exact 0).after [.remaining 20000000, .remaining 0, .start 7]).remaining 7).2.1 =
      16666666 := by decide

end ByteByteJump.Pacer
