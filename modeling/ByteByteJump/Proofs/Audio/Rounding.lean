import Mathlib.Algebra.Ring.Nat
import ByteByteJump.Audio.Rounding

/-! Numbers of single precision.

A number of 24 significant bits is a multiple of the last of them that counts
(`Single`). Rounding leads to such a number and leaves it alone, and it does not pass any
other. -/
namespace ByteByteJump.Audio

/-- A number that single precision holds exactly. -/
def Single (n : Nat) : Prop := 2 ^ spareBits n ∣ n

variable {m n k num den : Nat}

theorem spareBits_le (h : n < 2 ^ (significantBits + k)) : spareBits n ≤ k := by
  unfold spareBits
  by_cases hn : n = 0
  · subst hn
    exact Nat.sub_le_of_le_add (Nat.le_add_left_of_le (by decide))
  · have := (Nat.log2_lt hn).2 h
    omega

theorem lt_two_pow_spareBits (n : Nat) : n < 2 ^ (significantBits + spareBits n) := by
  by_cases hn : n = 0
  · subst hn
    decide
  · rw [← Nat.log2_lt hn]
    unfold spareBits
    omega

theorem spareBits_mono (h : m ≤ n) : spareBits m ≤ spareBits n :=
  spareBits_le (Nat.lt_of_le_of_lt h (lt_two_pow_spareBits n))

theorem single_of_dvd (h : 2 ^ k ∣ n) (hn : n < 2 ^ (significantBits + k)) : Single n :=
  Nat.dvd_trans (Nat.pow_dvd_pow 2 (spareBits_le hn)) h

/-- A whole number of 24 bits, or the first after them, scaled by a power of two. -/
theorem single_mul (h : m ≤ 2 ^ significantBits) (k : Nat) : Single (m * 2 ^ k) := by
  rcases Nat.lt_or_eq_of_le h with hlt | rfl
  · apply single_of_dvd (Nat.dvd_mul_left ..)
    rw [Nat.pow_add]
    exact Nat.mul_lt_mul_of_pos_right hlt (Nat.two_pow_pos k)
  -- A carry makes one more bit, and all of them but the first are zero.
  · rw [← Nat.pow_add]
    apply single_of_dvd (k := k + 1)
    · exact Nat.pow_dvd_pow 2 (by rw [Nat.add_comm]; exact Nat.add_le_add_right (by decide) k)
    · exact Nat.pow_lt_pow_right (by decide) (by omega)

/-! ### Rounding -/

theorem roundDiv_le (num den : Nat) : roundDiv num den ≤ num / den + 1 := by
  simp only [roundDiv]
  split
  · exact Nat.le_succ _
  · exact Nat.le_refl _

theorem round_eq (n : Nat) : round n = roundQuotient n 1 := by
  simp only [round, roundQuotient, Nat.div_one]

theorem roundQuotient_eq (num den : Nat) : roundQuotient num den =
    roundDiv num (den * 2 ^ spareBits (num / den)) * 2 ^ spareBits (num / den) := by
  simp only [roundQuotient, Nat.shiftLeft_eq]

/-- The significant bits of a quotient, rounded. -/
theorem roundDiv_le_two_pow (num den k : Nat) (h : num / den < 2 ^ (n + k)) :
    roundDiv num (den * 2 ^ k) ≤ 2 ^ n := by
  have hquotient : num / (den * 2 ^ k) < 2 ^ n := by
    rw [← Nat.div_div_eq_div_mul]
    apply Nat.div_lt_of_lt_mul
    rwa [← Nat.pow_add, Nat.add_comm]
  exact Nat.le_trans (roundDiv_le ..) hquotient

theorem single_roundQuotient (num den : Nat) : Single (roundQuotient num den) := by
  rw [roundQuotient_eq]
  exact single_mul (roundDiv_le_two_pow num den _ (lt_two_pow_spareBits _)) _

/-- Rounding gives a number of single precision. -/
theorem single_round (n : Nat) : Single (round n) := by
  rw [round_eq]
  exact single_roundQuotient n 1

theorem roundQuotient_le (h : num / den < 2 ^ k) : roundQuotient num den ≤ 2 ^ k := by
  have hspare : spareBits (num / den) ≤ k :=
    spareBits_le (Nat.lt_of_lt_of_le h (Nat.pow_le_pow_right (by decide) (Nat.le_add_left ..)))
  obtain ⟨j, rfl⟩ := Nat.exists_eq_add_of_le' hspare
  rw [roundQuotient_eq, Nat.pow_add]
  exact Nat.mul_le_mul_right _ (roundDiv_le_two_pow num den _ h)

/-- Rounding does not pass a power of two. -/
theorem round_le (h : n < 2 ^ k) : round n ≤ 2 ^ k := by
  rw [round_eq]
  apply roundQuotient_le
  rwa [Nat.div_one]

/-- A number of single precision is not rounded. -/
theorem round_of_single (h : Single n) : round n = n := by
  obtain ⟨c, hc⟩ := h
  have hpos : 0 < 2 ^ spareBits n := Nat.two_pow_pos _
  rw [round_eq, roundQuotient_eq, Nat.div_one, Nat.one_mul]
  generalize 2 ^ spareBits n = d at hc hpos ⊢
  subst hc
  have hwhole : roundDiv (d * c) d = c := by
    simp only [roundDiv, Nat.mul_mod_right, Nat.mul_zero, hpos, true_or, if_true,
      Nat.mul_div_cancel_left c hpos]
  rw [hwhole, Nat.mul_comm]

theorem two_pow_spareBits_dvd_round (n : Nat) : 2 ^ spareBits n ∣ round n := by
  rw [round_eq, roundQuotient_eq, Nat.div_one]
  exact Nat.dvd_mul_left ..

/-! ### Bounds -/

theorem roundDiv_le_of_le (hden : 0 < den) (h : num ≤ m * den) : roundDiv num den ≤ m := by
  obtain ⟨hnear, -⟩ := @roundDiv_near num den hden
  by_contra hlt
  have hmore : (m + 1) * den ≤ roundDiv num den * den :=
    Nat.mul_le_mul_right den (Nat.lt_of_not_le hlt)
  rw [Nat.succ_mul] at hmore
  omega

theorem le_roundDiv (num den : Nat) : num / den ≤ roundDiv num den := by
  simp only [roundDiv]
  split
  · exact Nat.le_refl _
  · exact Nat.le_succ _

theorem le_roundDiv_of_le (hden : 0 < den) (h : m * den ≤ num) : m ≤ roundDiv num den :=
  Nat.le_trans ((Nat.le_div_iff_mul_le hden).2 h) (le_roundDiv num den)

/-- A quotient that is not small has all of its significant bits. -/
theorem two_pow_spareBits_le (hn : spareBits n ≠ 0) : 2 ^ (23 + spareBits n) ≤ n := by
  have hpos : n ≠ 0 := by
    rintro rfl
    exact hn rfl
  rw [← Nat.le_log2 hpos]
  unfold spareBits significantBits at hn ⊢
  omega

theorem roundQuotient_le_of_single (hm : Single m) (hden : 0 < den) (h : num ≤ m * den) :
    roundQuotient num den ≤ m := by
  have hspare : spareBits (num / den) ≤ spareBits m :=
    spareBits_mono (Nat.div_le_of_le_mul (by rwa [Nat.mul_comm]))
  obtain ⟨c, hc⟩ := Nat.dvd_trans (Nat.pow_dvd_pow 2 hspare) hm
  have hpos : 0 < 2 ^ spareBits (num / den) := Nat.two_pow_pos _
  rw [roundQuotient_eq]
  generalize 2 ^ spareBits (num / den) = d at hc hpos ⊢
  have hsignificand : roundDiv num (den * d) ≤ c := by
    apply roundDiv_le_of_le (Nat.mul_pos hden hpos)
    rwa [Nat.mul_comm den, ← Nat.mul_assoc, Nat.mul_comm c, ← hc]
  rw [hc, Nat.mul_comm d]
  exact Nat.mul_le_mul_right d hsignificand

theorem le_roundQuotient_of_single (hm : Single m) (hden : 0 < den) (h : m * den ≤ num) :
    m ≤ roundQuotient num den := by
  have hle : m ≤ num / den := (Nat.le_div_iff_mul_le hden).2 h
  have hpos : 0 < 2 ^ spareBits (num / den) := Nat.two_pow_pos _
  rw [roundQuotient_eq]
  by_cases hdvd : 2 ^ spareBits (num / den) ∣ m
  · obtain ⟨c, hc⟩ := hdvd
    generalize 2 ^ spareBits (num / den) = d at hc hpos ⊢
    rw [hc, Nat.mul_comm d]
    apply Nat.mul_le_mul_right d
    apply le_roundDiv_of_le (Nat.mul_pos hden hpos)
    rwa [Nat.mul_comm den, ← Nat.mul_assoc, Nat.mul_comm c, ← hc]
  -- Where the quotient has more bits before its significant ones, it is past `m` by a power of two.
  · have hfewer : spareBits m < spareBits (num / den) := by
      by_contra hge
      exact hdvd (Nat.dvd_trans (Nat.pow_dvd_pow 2 (Nat.le_of_not_lt hge)) hm)
    have hbelow : m ≤ 2 ^ 23 * 2 ^ spareBits (num / den) := by
      rw [← Nat.pow_add]
      refine Nat.le_trans (Nat.le_of_lt (lt_two_pow_spareBits m)) ?_
      exact Nat.pow_le_pow_right (by decide) (by unfold significantBits; omega)
    have hfirst : 2 ^ 23 * 2 ^ spareBits (num / den) ≤ num / den := by
      rw [← Nat.pow_add]
      exact two_pow_spareBits_le (by omega)
    refine Nat.le_trans hbelow (Nat.mul_le_mul_right _ ?_)
    apply le_roundDiv_of_le (Nat.mul_pos hden hpos)
    rw [Nat.mul_comm den, ← Nat.mul_assoc]
    exact (Nat.le_div_iff_mul_le hden).1 hfirst

/-- A quotient that single precision holds is not rounded. -/
theorem roundQuotient_of_single (hm : Single m) (hden : 0 < den) (h : num = m * den) :
    roundQuotient num den = m :=
  Nat.le_antisymm (roundQuotient_le_of_single hm hden (Nat.le_of_eq h))
    (le_roundQuotient_of_single hm hden (Nat.le_of_eq h.symm))

/-- Rounding does not pass a number of single precision. -/
theorem round_le_of_single (hm : Single m) (h : n ≤ m) : round n ≤ m := by
  rw [round_eq]
  exact roundQuotient_le_of_single hm Nat.one_pos (by rwa [Nat.mul_one])

theorem le_round_of_single (hm : Single m) (h : m ≤ n) : m ≤ round n := by
  rw [round_eq]
  exact le_roundQuotient_of_single hm Nat.one_pos (by rwa [Nat.mul_one])

/-- A power of two taken off a number is lost in rounding, or nothing of it is. -/
theorem round_sub_two_pow_or (hn : Single n) (k : Nat) :
    round (n - 2 ^ k) = n ∨ round (n - 2 ^ k) ≤ n - 2 ^ k := by
  have hdvd : 2 ^ spareBits (n - 2 ^ k) ∣ n :=
    Nat.dvd_trans (Nat.pow_dvd_pow 2 (spareBits_mono (Nat.sub_le ..))) hn
  rcases Nat.le_total k (spareBits (n - 2 ^ k)) with hk | hk
  -- Both are multiples of the last bit that counts, which is no less than the power.
  · have hle : round (n - 2 ^ k) ≤ n := round_le_of_single hn (Nat.sub_le ..)
    have hapart := Nat.dvd_sub hdvd (two_pow_spareBits_dvd_round (n - 2 ^ k))
    rcases Nat.eq_zero_or_pos (n - round (n - 2 ^ k)) with hzero | hpos
    · exact .inl (by omega)
    · have hpower : 2 ^ k ≤ n - round (n - 2 ^ k) :=
        Nat.le_trans (Nat.pow_le_pow_right Nat.two_pos hk) (Nat.le_of_dvd hpos hapart)
      exact .inr (by omega)
  · have hsingle : Single (n - 2 ^ k) := Nat.dvd_sub hdvd (Nat.pow_dvd_pow 2 hk)
    exact .inr (Nat.le_of_eq (round_of_single hsingle))

end ByteByteJump.Audio
