import CellFormula.Number.Rounding
import Mathlib
/-! The bits of a nonnegative number are those that it was made of, and those of the opposite number
differ from them in the highest bit. -/
namespace CellFormula.Number
open Float.Model Float.Model.UnpackedFloat

private theorem toNat_unpackExponent (b : BitVec Format.binary64.numBits) :
    (unpackExponent b).toNat = b.toNat / 2 ^ 52 % 2 ^ 11 := by
  simp [unpackExponent_def, Nat.shiftRight_eq_div_pow]

private theorem toNat_unpackMantissa (b : BitVec Format.binary64.numBits) :
    (unpackMantissa b).toNat = b.toNat % 2 ^ 52 := by
  simp [unpackMantissa_def]

private theorem fraction_eq_zero {b : BitVec Format.binary64.numBits} (h : b.toNat ≤ infinityBits)
    (top : unpackExponent b = -1#_) : unpackMantissa b = 0#_ := by
  have field := congrArg BitVec.toNat top
  rw [toNat_unpackExponent] at field
  change b.toNat / 2 ^ 52 % 2 ^ 11 = 2047 at field
  change b.toNat ≤ 0x7ff * 2 ^ 52 at h
  apply BitVec.eq_of_toNat_eq
  rw [toNat_unpackMantissa]
  change b.toNat % 2 ^ 52 = 0
  omega

section Nonnegative
variable {bits : Nat}

private theorem toNat_ofNat_toBitVec (h : bits ≤ infinityBits) :
    (UInt64.ofNat bits).toBitVec.toNat = bits := by
  have small : bits < 2 ^ 64 := Nat.lt_of_le_of_lt h (by decide)
  exact Nat.mod_eq_of_lt small

theorem toBits_ofMagnitudeBits (h : bits ≤ infinityBits) :
    (ofMagnitudeBits bits).toBits = .ofNat bits := by
  have same := toNat_ofNat_toBitVec h
  have valid : Format.binary64.Valid (UInt64.ofNat bits).toBitVec := by
    refine ⟨fun top nonzero => absurd (fraction_eq_zero ?_ top) nonzero⟩
    rw [same]
    exact h
  exact congrArg UInt64.ofBitVec (pack_unpack_of_valid valid)

@[simp] theorem magnitudeBits_ofMagnitudeBits (h : bits ≤ infinityBits) :
    magnitudeBits (ofMagnitudeBits bits) = bits := by
  have small : bits < 1 <<< 63 := Nat.lt_of_le_of_lt h (by decide)
  rw [magnitudeBits, toBits_ofMagnitudeBits h]
  change (UInt64.ofNat bits).toBitVec.toNat % _ = _
  rw [toNat_ofNat_toBitVec h, Nat.mod_eq_of_lt small]

@[simp] theorem isNegative_ofMagnitudeBits (h : bits ≤ infinityBits) :
    isNegative (ofMagnitudeBits bits) = false := by
  have small : bits < 1 <<< 63 := Nat.lt_of_le_of_lt h (by decide)
  rw [isNegative, toBits_ofMagnitudeBits h]
  change decide ((UInt64.ofNat bits).toBitVec.toNat ≥ _) = _
  rw [toNat_ofNat_toBitVec h]
  exact decide_eq_false (Nat.not_le_of_lt small)

theorem isNaN_ofMagnitudeBits (h : bits ≤ infinityBits) :
    (ofMagnitudeBits bits).isNaN = false := by
  have large : infinityBits < magnitudeBits Float.nan := by decide +kernel
  rw [Float.isNaN_eq_decide_eq_nan, decide_eq_false_iff_not]
  intro same
  have magnitude := magnitudeBits_ofMagnitudeBits h
  rw [same] at magnitude
  omega

end Nonnegative

theorem toNat_packComponents (sign : Sign) (exponent : BitVec 11) (mantissa : BitVec 52) :
    (packComponents Format.binary64 sign exponent mantissa).toNat =
      sign.toBitVec.toNat * 2 ^ 63 + exponent.toNat * 2 ^ 52 + mantissa.toNat := by
  have small := mantissa.isLt
  have exp := exponent.isLt
  change ((sign.toBitVec ++ exponent) ++ mantissa).toNat = _
  rw [BitVec.toNat_append, ← Nat.shiftLeft_add_eq_or_of_lt small, Nat.shiftLeft_eq,
    BitVec.toNat_append, ← Nat.shiftLeft_add_eq_or_of_lt exp, Nat.shiftLeft_eq]
  omega

private theorem toNat_packComponents_neg (sign : Sign) (exponent : BitVec 11)
    (mantissa : BitVec 52) :
    (packComponents Format.binary64 (-sign) exponent mantissa).toNat =
      ((packComponents Format.binary64 sign exponent mantissa).toNat + 2 ^ 63) % 2 ^ 64 := by
  have small := mantissa.isLt
  have exp := exponent.isLt
  rw [toNat_packComponents, toNat_packComponents]
  cases sign with
  | positive =>
    change 1 * 2 ^ 63 + _ + _ = (0 * 2 ^ 63 + _ + _ + 2 ^ 63) % 2 ^ 64
    omega
  | negative =>
    change 0 * 2 ^ 63 + _ + _ = (1 * 2 ^ 63 + _ + _ + 2 ^ 63) % 2 ^ 64
    omega

private theorem toNat_pack_neg {f : UnpackedFloat} (number : f ≠ .notANumber) :
    (UnpackedFloat.pack Format.binary64 f.neg).toNat =
      ((UnpackedFloat.pack Format.binary64 f).toNat + 2 ^ 63) % 2 ^ 64 := by
  cases f with
  | notANumber => exact absurd rfl number
  | infinity sign => exact toNat_packComponents_neg sign _ _
  | zero sign => exact toNat_packComponents_neg sign _ _
  | finite sign mantissa exponent positive =>
    simp only [UnpackedFloat.neg, UnpackedFloat.pack]
    split
    · exact toNat_packComponents_neg sign _ _
    · split
      · exact toNat_packComponents_neg sign _ _
      · exact toNat_packComponents_neg sign _ _

private theorem unpack_ne_notANumber {x : Float} (number : x.isNaN = false) :
    UnpackedFloat.unpack Format.binary64 x.toModel.toBits.toBitVec ≠ .notANumber := by
  intro same
  have isNaN : x.isNaN = true := isNaN_iff.2 same
  rw [number] at isNaN
  cases isNaN

theorem toNat_toBits_neg {x : Float} (number : x.isNaN = false) :
    x.neg.toBits.toNat = (x.toBits.toNat + 2 ^ 63) % 2 ^ 64 := by
  have packed := toNat_pack_neg (unpack_ne_notANumber number)
  rw [pack_unpack_of_valid x.toModel.valid] at packed
  exact packed

theorem magnitudeBits_le {x : Float} (number : x.isNaN = false) :
    magnitudeBits x ≤ infinityBits := by
  apply Nat.not_lt.1
  intro beyond
  change 0x7ff * 2 ^ 52 < x.toModel.toBits.toBitVec.toNat % 2 ^ 63 at beyond
  have top : @unpackExponent Format.binary64 x.toModel.toBits.toBitVec = -1#_ := by
    apply BitVec.eq_of_toNat_eq
    rw [toNat_unpackExponent]
    change _ = 2047
    omega
  have fraction : @unpackMantissa Format.binary64 x.toModel.toBits.toBitVec ≠ 0#_ := by
    intro none
    have field := congrArg BitVec.toNat top
    have zero := congrArg BitVec.toNat none
    rw [toNat_unpackExponent] at field
    rw [toNat_unpackMantissa] at zero
    change _ = 2047 at field
    change _ = 0 at zero
    omega
  apply unpack_ne_notANumber number
  rw [x.toModel.valid.eq_packedNaN top fraction]
  exact unpack_packedNaN

theorem eq_of_magnitude {x : Float} (number : x.isNaN = false) :
    x = if isNegative x then (ofMagnitudeBits (magnitudeBits x)).neg
      else ofMagnitudeBits (magnitudeBits x) := by
  have magnitude := magnitudeBits_le number
  have small : x.toBits.toNat < 2 ^ 64 := x.toBits.toNat_lt
  apply Float.toBits_inj.1
  apply UInt64.toNat_inj.1
  have bits : (ofMagnitudeBits (magnitudeBits x)).toBits.toNat = magnitudeBits x := by
    rw [toBits_ofMagnitudeBits magnitude]
    exact toNat_ofNat_toBitVec magnitude
  have split : x.toBits.toNat % 2 ^ 63 = magnitudeBits x := rfl
  split
  · rename_i negative
    have large : 2 ^ 63 ≤ x.toBits.toNat := of_decide_eq_true negative
    rw [toNat_toBits_neg (isNaN_ofMagnitudeBits magnitude), bits]
    omega
  · rename_i nonnegative
    have less : ¬ 2 ^ 63 ≤ x.toBits.toNat := fun large => nonnegative (decide_eq_true large)
    rw [bits]
    omega

end CellFormula.Number
