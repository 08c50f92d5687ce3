import Mathlib.Algebra.Order.Field.Power
import Mathlib.Data.Rat.Cast.Order
import Mathlib.Tactic.FieldSimp
import Mathlib.Tactic.Linarith
import Mathlib.Tactic.NormNum
import Mathlib.Tactic.Positivity
import Mathlib.Tactic.Ring
import ByteByteJump.Proofs.Audio.Rounding

/-! Rounding is to the nearest number of single precision, to the even one of two.

Numbers in units of a power of two are numbers like any others, and what single precision
has for them is nearest among all that it has, not only among whole units (`RoundsTo`).
Seen in units of the last significant bit (`roundsTo_scaled`), the rounded number is a whole
one at most a half away. A number of single precision that is not whole there has more
bits below, hence fewer above, and lies under all that have 24. -/
namespace ByteByteJump.Audio

/-- A finite number of single precision: 24 bits with a sign, scaled by a power of two. -/
def Representable (x : ℚ) : Prop :=
  ∃ (m : ℤ) (e : ℤ), |m| < 2 ^ 24 ∧ -149 ≤ e ∧ e ≤ 104 ∧ x = m * 2 ^ e

/-- The last of the bits is zero. They are 24 from the first that is not zero, and fewer only
at the least power of two. -/
def LastBitZero (x : ℚ) : Prop :=
  ∃ (m : ℕ) (e : ℤ), 2 * m < 2 ^ 24 ∧ (2 ^ 23 ≤ 2 * m ∨ e = -149) ∧ x = (2 * m : ℕ) * 2 ^ e

/-- What single precision has for a number: the nearest there is, and of two as near the one
whose last bit is zero. -/
structure RoundsTo (x y : ℚ) : Prop where
  representable : Representable y
  nearest : ∀ z, Representable z → |x - y| ≤ |x - z|
  even : ∀ z, Representable z → z ≠ y → |x - z| = |x - y| → LastBitZero y

variable {x y : ℚ} {n num den : ℕ} {u : ℤ}

theorem roundsTo_self (h : Representable x) : RoundsTo x x where
  representable := h
  nearest z _ := by
    rw [sub_self, abs_zero]
    exact abs_nonneg _
  even z _ hne htie := by
    rw [sub_self, abs_zero, abs_eq_zero, sub_eq_zero] at htie
    exact absurd htie.symm hne

/-! ### Whole numbers -/

section Whole
variable {c : ℕ} {k : ℤ}

/-- Two whole numbers are not both less than a half away. -/
theorem one_le_abs_add_abs (hk : k ≠ c) (x : ℚ) : 1 ≤ |x - k| + |x - c| := by
  have hapart : (1 : ℚ) ≤ |(k : ℚ) - c| := by
    have hint : 1 ≤ |k - (c : ℤ)| := Int.one_le_abs (sub_ne_zero.2 hk)
    exact_mod_cast hint
  calc 1 ≤ |(k : ℚ) - c| := hapart
    _ ≤ |(k : ℚ) - x| + |x - c| := abs_sub_le _ _ _
    _ = |x - k| + |x - c| := by rw [abs_sub_comm]

theorem abs_sub_le_of_half (h : |x - c| ≤ 1 / 2) (k : ℤ) : |x - c| ≤ |x - k| := by
  by_cases hk : k = c
  · subst hk
    exact le_refl _
  · have hapart := one_le_abs_add_abs hk x
    linarith

theorem abs_sub_eq_half (h : |x - c| ≤ 1 / 2) (hk : k ≠ c) (htie : |x - k| = |x - c|) :
    |x - c| = 1 / 2 := by
  have hapart := one_le_abs_add_abs hk x
  linarith

theorem abs_sub_roundDiv_le (h : 0 < den) : |(num : ℚ) / den - roundDiv num den| ≤ 1 / 2 := by
  obtain ⟨hlow, hhigh⟩ := @roundDiv_near num den h
  have hden : (0 : ℚ) < den := by exact_mod_cast h
  have hlow : 2 * ((roundDiv num den : ℚ) * den) ≤ 2 * num + den := by exact_mod_cast hlow
  have hhigh : 2 * (num : ℚ) ≤ 2 * ((roundDiv num den : ℚ) * den) + den := by exact_mod_cast hhigh
  rw [abs_le, neg_le_sub_iff_le_add, sub_le_iff_le_add, div_add' _ _ _ hden.ne',
    le_div_iff₀ hden, div_le_iff₀ hden]
  constructor <;> linarith

/-- Of two whole numbers that are as near, division takes the even one. -/
theorem two_dvd_roundDiv (h : 0 < den) (htie : |(num : ℚ) / den - roundDiv num den| = 1 / 2) :
    2 ∣ roundDiv num den := by
  have hden : (0 : ℚ) < den := by exact_mod_cast h
  have hhalf : 2 * num = 2 * (roundDiv num den * den) + den ∨
      2 * num + den = 2 * (roundDiv num den * den) := by
    rcases eq_or_eq_neg_of_abs_eq htie with hup | hdown
    · left
      rw [sub_eq_iff_eq_add, div_eq_iff hden.ne'] at hup
      have hcast : 2 * (num : ℚ) = 2 * ((roundDiv num den : ℚ) * den) + den := by linarith
      exact_mod_cast hcast
    · right
      rw [sub_eq_iff_eq_add, div_eq_iff hden.ne'] at hdown
      have hcast : 2 * (num : ℚ) + den = 2 * ((roundDiv num den : ℚ) * den) := by linarith
      exact_mod_cast hcast
  have hdivision := Nat.div_add_mod num den
  have hmod := Nat.mod_lt num h
  rw [Nat.mul_comm] at hdivision
  simp only [roundDiv] at hhalf ⊢
  split
  next hcond =>
    rw [if_pos hcond] at hhalf
    omega
  next hcond =>
    rw [if_neg hcond, Nat.add_mul, Nat.one_mul] at hhalf
    omega

end Whole

/-! ### In units of the last bit -/

section Scaled
variable {c : ℕ} {e : ℤ}

theorem representable_mul (he : -149 ≤ e) (he' : e < 104) (hc : c ≤ 2 ^ 24) :
    Representable (c * 2 ^ e) := by
  rcases Nat.lt_or_eq_of_le hc with hlt | rfl
  · refine ⟨c, e, ?_, he, he'.le, by push_cast; rfl⟩
    rw [Nat.abs_cast]
    exact_mod_cast hlt
  · refine ⟨2 ^ 23, e + 1, by norm_num, by omega, by omega, ?_⟩
    rw [zpow_add₀ two_ne_zero]
    push_cast
    ring

theorem lastBitZero_mul (heven : 2 ∣ c) (hc : 2 ^ 23 ≤ c) (hc' : c ≤ 2 ^ 24) :
    LastBitZero (c * 2 ^ e) := by
  obtain ⟨m, rfl⟩ := heven
  rcases Nat.lt_or_eq_of_le hc' with hlt | hcarry
  · exact ⟨m, e, hlt, .inl hc, rfl⟩
  · refine ⟨2 ^ 22, e + 1, by norm_num, .inl (by norm_num), ?_⟩
    rw [hcarry, zpow_add₀ two_ne_zero]
    push_cast
    ring

theorem abs_sub_mul_unit (x y : ℚ) (e : ℤ) : |x * 2 ^ e - y * 2 ^ e| = |x - y| * 2 ^ e := by
  have hunit : (0 : ℚ) < 2 ^ e := zpow_pos two_pos e
  rw [← sub_mul, abs_mul, abs_of_pos hunit]

/-- Whatever single precision has is a whole number of units or farther away. -/
theorem whole_or_farther (hx : 2 ^ 23 ≤ x) (hhalf : |x - c| ≤ 1 / 2) {z : ℚ}
    (hz : Representable z) : (∃ k : ℤ, z = k * 2 ^ e) ∨ |x - c| * 2 ^ e < |x * 2 ^ e - z| := by
  obtain ⟨m, f, hm, -, -, rfl⟩ := hz
  have hunit : (0 : ℚ) < 2 ^ e := zpow_pos two_pos e
  by_cases hf : e ≤ f
  · refine .inl ⟨m * 2 ^ (f - e).toNat, ?_⟩
    have hsum : f = ((f - e).toNat : ℤ) + e := by omega
    push_cast
    rw [mul_assoc, ← zpow_natCast, ← zpow_add₀ two_ne_zero, ← hsum]
  · right
    have hbelow : (m : ℚ) * 2 ^ f < 2 ^ 23 * 2 ^ e := by
      have hbits : (m : ℚ) < 2 ^ 24 := by exact_mod_cast (le_abs_self m).trans_lt hm
      have hpower : (2 : ℚ) ^ f ≤ 2 ^ (e - 1) := zpow_le_zpow_right₀ one_le_two (by omega)
      calc (m : ℚ) * 2 ^ f < 2 ^ 24 * 2 ^ f := mul_lt_mul_of_pos_right hbits (zpow_pos two_pos f)
        _ ≤ 2 ^ 24 * 2 ^ (e - 1) := mul_le_mul_of_nonneg_left hpower (by positivity)
        _ = 2 ^ 23 * 2 ^ e := by
          rw [zpow_sub₀ two_ne_zero]
          ring
    have hleast : |x - c| ≤ x - 2 ^ 23 := by
      have h := abs_sub_le_of_half hhalf (2 ^ 23)
      rwa [Int.cast_pow, Int.cast_ofNat, abs_of_nonneg (sub_nonneg.2 hx)] at h
    calc |x - c| * 2 ^ e ≤ (x - 2 ^ 23) * 2 ^ e := mul_le_mul_of_nonneg_right hleast hunit.le
      _ = x * 2 ^ e - 2 ^ 23 * 2 ^ e := sub_mul ..
      _ < x * 2 ^ e - m * 2 ^ f := sub_lt_sub_left hbelow _
      _ ≤ |x * 2 ^ e - m * 2 ^ f| := le_abs_self _

/-- Where the last of 24 bits counts one, the nearest whole number is what single precision
has. -/
theorem roundsTo_scaled (he : -149 ≤ e) (he' : e < 104) (hx : 2 ^ 23 ≤ x) (hc : 2 ^ 23 ≤ c)
    (hc' : c ≤ 2 ^ 24) (hhalf : |x - c| ≤ 1 / 2) (heven : |x - c| = 1 / 2 → 2 ∣ c) :
    RoundsTo (x * 2 ^ e) (c * 2 ^ e) where
  representable := representable_mul he he' hc'
  nearest z hz := by
    rw [abs_sub_mul_unit]
    rcases whole_or_farther (e := e) hx hhalf hz with ⟨k, rfl⟩ | hfar
    · rw [abs_sub_mul_unit]
      exact mul_le_mul_of_nonneg_right (abs_sub_le_of_half hhalf k) (zpow_pos two_pos e).le
    · exact hfar.le
  even z hz hne htie := by
    rw [abs_sub_mul_unit] at htie
    rcases whole_or_farther (e := e) hx hhalf hz with ⟨k, rfl⟩ | hfar
    · rw [abs_sub_mul_unit] at htie
      have hk : k ≠ c := by
        rintro rfl
        exact hne (by push_cast; rfl)
      have htie := mul_right_cancel₀ (zpow_pos two_pos e).ne' htie
      exact lastBitZero_mul (heven (abs_sub_eq_half hhalf hk htie)) hc hc'
    · exact absurd htie hfar.ne'

end Scaled

/-! ### Rounding -/

theorem roundsTo_roundQuotient (hu : -149 ≤ u) (hu' : u ≤ 0) (hden : 0 < den)
    (hlow : 2 ^ 23 * den ≤ num) (hhigh : num / den < 2 ^ 66) :
    RoundsTo (num / den * 2 ^ u) (roundQuotient num den * 2 ^ u) := by
  have hspare : spareBits (num / den) ≤ 42 := spareBits_le hhigh
  have hfirst : 2 ^ 23 * 2 ^ spareBits (num / den) ≤ num / den := by
    by_cases hzero : spareBits (num / den) = 0
    · rw [hzero, pow_zero, mul_one]
      exact (Nat.le_div_iff_mul_le hden).2 hlow
    · rw [← Nat.pow_add]
      exact two_pow_spareBits_le hzero
  have hbits : roundDiv num (den * 2 ^ spareBits (num / den)) ≤ 2 ^ 24 :=
    roundDiv_le_two_pow num den _ (lt_two_pow_spareBits _)
  rw [roundQuotient_eq]
  generalize spareBits (num / den) = s at hspare hfirst hbits ⊢
  have hunit : 0 < den * 2 ^ s := Nat.mul_pos hden (Nat.two_pow_pos s)
  have hscaled : 2 ^ 23 * (den * 2 ^ s) ≤ num := by
    rw [Nat.mul_comm den, ← Nat.mul_assoc]
    exact (Nat.le_div_iff_mul_le hden).1 hfirst
  have hx : (2 : ℚ) ^ 23 ≤ (num : ℚ) / (den * 2 ^ s : ℕ) := by
    rw [le_div_iff₀ (by exact_mod_cast hunit)]
    exact_mod_cast hscaled
  have hround := roundsTo_scaled (e := s + u) (by omega) (by omega) hx
    (le_roundDiv_of_le hunit hscaled) hbits (abs_sub_roundDiv_le hunit) (two_dvd_roundDiv hunit)
  have hden' : (den : ℚ) ≠ 0 := by exact_mod_cast hden.ne'
  convert hround using 1
  · rw [zpow_add₀ two_ne_zero, zpow_natCast]
    push_cast
    field_simp
  · rw [zpow_add₀ two_ne_zero, zpow_natCast]
    push_cast
    ring

theorem roundsTo_round (hu : -149 ≤ u) (hu' : u ≤ 0) (hn : n < 2 ^ 66) :
    RoundsTo (n * 2 ^ u) (round n * 2 ^ u) := by
  by_cases hsmall : n < 2 ^ 24
  · rw [round_of_lt hsmall]
    exact roundsTo_self (representable_mul hu (by omega) hsmall.le)
  · have hround := @roundsTo_roundQuotient n 1 _ hu hu' Nat.one_pos (by omega)
      (by rwa [Nat.div_one])
    rwa [Nat.cast_one, div_one, ← round_eq] at hround

end ByteByteJump.Audio
