/-! Rounding to the nearest number of 24 significant bits.

Single precision keeps 24 significant bits of a result and, of two numbers
equally near, takes the one whose last bit is zero. The rule does not depend on
the unit in which numbers are counted, so here they are natural numbers of some
unit small enough that no number in question is a fraction of it. -/
namespace ByteByteJump.Audio

/-- The whole number nearest to a quotient, the even one of two equally near. -/
def roundDiv (num den : Nat) : Nat :=
  let q := num / den
  let twice := 2 * (num % den)
  if twice < den ∨ (twice = den ∧ q % 2 = 0) then q else q + 1

/-- The significant bits of single precision. -/
def significantBits : Nat := 24

/-- How many low bits of `n` do not count. -/
def spareBits (n : Nat) : Nat := n.log2 + 1 - significantBits

/-- `n` to 24 significant bits. -/
def round (n : Nat) : Nat :=
  let spare := spareBits n
  roundDiv n (1 <<< spare) <<< spare

/-- A quotient of at least `2 ^ 23` to 24 significant bits. -/
def roundQuotient (num den : Nat) : Nat :=
  let spare := spareBits (num / den)
  roundDiv num (den <<< spare) <<< spare

theorem roundDiv_one (n : Nat) : roundDiv n 1 = n := by
  simp [roundDiv, Nat.mod_one]

/-- A number of at most 24 bits stays. -/
theorem round_of_lt {n : Nat} (h : n < 1 <<< significantBits) : round n = n := by
  have : spareBits n = 0 := by
    by_cases hn : n = 0
    · simp [hn, spareBits, significantBits]
    · have := (Nat.log2_lt hn).2 (Nat.one_shiftLeft _ ▸ h)
      unfold spareBits
      omega
  simp [round, this, roundDiv_one]

/-- The rounded quotient is within half of the nearest whole. -/
theorem roundDiv_near {num den : Nat} (h : 0 < den) :
    2 * (roundDiv num den * den) ≤ 2 * num + den ∧ 2 * num ≤ 2 * (roundDiv num den * den) + den := by
  have hq := Nat.div_add_mod num den
  have hr := Nat.mod_lt num h
  rw [Nat.mul_comm] at hq
  simp only [roundDiv]
  split
  · omega
  · rw [Nat.add_mul, Nat.one_mul]
    omega

end ByteByteJump.Audio
