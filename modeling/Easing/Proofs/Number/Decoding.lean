import Easing.Number.Binary64
import Mathlib

/-! # The two decodings of a double

The arithmetic of doubles is defined on their unpacked form; texts and integer
parts are computed from `Binary64`. Both forms are read off the same bits, and
one is a function of the other.
-/

namespace Easing.Binary64

open Float.Model
open Float.Model.UnpackedFloat (Sign)

/-- Whether a sign is a minus. -/
def isMinus : Sign → Bool
  | .negative => true
  | .positive => false

/-- What an unpacked double stands for. -/
def ofUnpacked : UnpackedFloat → Binary64
  | .notANumber => .nan
  | .infinity sign => .infinite (isMinus sign)
  | .zero sign => .finite (isMinus sign) 0 (-1074)
  | .finite sign significand exponent _ => .finite (isMinus sign) significand exponent

/-- A sign bit and a sign are the same. -/
theorem toBitVec_ofBitVec (b : BitVec 1) : (Sign.ofBitVec b).toBitVec = b := by
  have hcases : b = 0#1 ∨ b = 1#1 := by
    have hlt := b.isLt
    rcases (show b.toNat = 0 ∨ b.toNat = 1 by omega) with h | h
    · exact .inl (BitVec.eq_of_toNat_eq h)
    · exact .inr (BitVec.eq_of_toNat_eq h)
  rcases hcases with rfl | rfl <;> rfl

theorem ofBitVec_toBitVec (sign : Sign) : Sign.ofBitVec sign.toBitVec = sign := by
  cases sign <;> rfl

theorem isMinus_ofBitVec (b : BitVec 1) : isMinus (Sign.ofBitVec b) = (b.toNat == 1) := by
  rw [← toBitVec_ofBitVec b, ofBitVec_toBitVec]
  cases Sign.ofBitVec b <;> rfl

section Fields

variable (bits : BitVec 64)

theorem toNat_unpackExponent :
    (@UnpackedFloat.unpackExponent Format.binary64 bits).toNat =
      (bits.toNat >>> 52) % 2048 := by
  simp [UnpackedFloat.unpackExponent]

theorem toNat_unpackMantissa :
    (@UnpackedFloat.unpackMantissa Format.binary64 bits).toNat =
      bits.toNat % hiddenBit := by
  simp [UnpackedFloat.unpackMantissa, hiddenBit]

theorem toNat_unpackSign :
    (@UnpackedFloat.unpackSign Format.binary64 bits).toNat = bits.toNat / 2 ^ 63 := by
  have hlt := bits.isLt
  simp only [UnpackedFloat.unpackSign, BitVec.toNat_cast, BitVec.extractLsb_toNat]
  rw [Nat.shiftRight_eq_div_pow]
  omega

theorem isMinus_unpackSign :
    isMinus (Sign.ofBitVec (@UnpackedFloat.unpackSign Format.binary64 bits)) =
      (bits.toNat >>> 63 == 1) := by
  rw [isMinus_ofBitVec, toNat_unpackSign, Nat.shiftRight_eq_div_pow]

end Fields

/-- Putting the hidden bit in front of a fraction adds it. -/
theorem toNat_hiddenBit_append (fraction : BitVec 52) :
    (1#1 ++ fraction).toNat = hiddenBit + fraction.toNat := by
  have hlt := fraction.isLt
  rw [BitVec.toNat_append, Nat.shiftLeft_eq, Nat.or_comm, BitVec.toNat_ofNat,
    Nat.one_mod_two_pow_eq_one.mpr Nat.one_pos, one_mul, Nat.or_two_pow_eq_add_of_lt hlt,
    Nat.add_comm]
  rfl

/-- The bits decode to what their unpacked form stands for. -/
theorem ofBits_eq_ofUnpacked (bits : UInt64) :
    ofBits bits = ofUnpacked (UnpackedFloat.unpack Format.binary64 bits.toBitVec) := by
  have hexp := toNat_unpackExponent bits.toBitVec
  have hman := toNat_unpackMantissa bits.toBitVec
  have hsign := isMinus_unpackSign bits.toBitVec
  simp only [UInt64.toNat_toBitVec] at hexp hman hsign
  have hones (e : BitVec 11) : e = -1#11 ↔ e.toNat = 2047 := BitVec.toNat_inj.symm
  have hzero (e : BitVec 11) : e = 0#11 ↔ e.toNat = 0 := BitVec.toNat_inj.symm
  have hfraction (m : BitVec 52) : m = 0#52 ↔ m.toNat = 0 := BitVec.toNat_inj.symm
  have hbias : (Format.binary64.exponentBias : Int) + (52 : Nat) = 1075 := by decide
  unfold ofBits UnpackedFloat.unpack
  simp only [← hexp, ← hman, ← hsign, hones, hzero, hfraction, toNat_hiddenBit_append, hbias]
  clear hexp hman hsign
  split_ifs with hall hnone hsubnormal hnone
  · rfl
  · rfl
  · simp only [ofUnpacked, hnone]
  · simp only [ofUnpacked, hsubnormal]
    rfl
  · rfl

/-- What a double stands for is a function of its unpacked form. -/
theorem ofFloat_eq_ofUnpacked (x : Float) : ofFloat x = ofUnpacked x.toModel.unpack :=
  ofBits_eq_ofUnpacked x.toBits

end Easing.Binary64
