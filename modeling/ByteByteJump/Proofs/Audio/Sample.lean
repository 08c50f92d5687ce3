import Mathlib.Algebra.Order.Field.Rat
import Mathlib.Data.Rat.Defs
import Mathlib.Tactic.NormNum
import ByteByteJump.Audio.Sample

/-! Samples are exact in single precision.

A byte stands for a signed number of 128ths, and so does its sample. The bits that a
device gets for it stand for the same number, without any rounding. -/
namespace ByteByteJump.Audio

/-- A byte as a signed number. -/
def signed (b : UInt8) : ℤ := if b.toNat < 128 then b.toNat else b.toNat - 256

/-- The number that the bits of a finite number of single precision stand for. -/
def singleValue (bits : UInt32) : ℚ :=
  let exponent : ℕ := bits.toNat / 2 ^ 23 % 2 ^ 8
  let fraction : ℕ := bits.toNat % 2 ^ 23
  let significand : ℕ := if exponent = 0 then fraction else 2 ^ 23 + fraction
  (if bits.toNat < 2 ^ 31 then 1 else -1) * (significand * 2 ^ max exponent 1 / 2 ^ 150)

namespace Sample

/-- The level that a sample stands for, between -1 and 1. -/
def amplitude (s : Sample) : ℚ := s.toInt / 128

theorem toInt_ofByte (b : UInt8) : (ofByte b).toInt = signed b := by
  unfold signed ofByte
  rw [← Int8.toInt_toBitVec, UInt8.toBitVec_toInt8, BitVec.toInt_eq_toNat_cond,
    UInt8.toNat_toBitVec]
  split <;> split <;> omega

theorem amplitude_ofByte (b : UInt8) : (ofByte b).amplitude = signed b / 128 := by
  rw [amplitude, toInt_ofByte]

theorem singleValue_single_ofNat :
    ∀ n : Fin 256, singleValue (ofByte (.ofNat n)).single = (ofByte (.ofNat n)).amplitude := by
  decide +kernel

theorem singleValue_single (b : UInt8) : singleValue (ofByte b).single = (ofByte b).amplitude := by
  have h := singleValue_single_ofNat ⟨b.toNat, b.toNat_lt⟩
  rwa [UInt8.ofNat_toNat] at h

end Sample

end ByteByteJump.Audio
