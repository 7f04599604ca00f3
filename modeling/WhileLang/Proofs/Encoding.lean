import Mathlib
import WhileLang.Number.Magnitude

/-!
# Codes and doubles

A double is its bits. Reading bits as a double and taking them back loses nothing but the payload of
what is no number, so a code up to infinity is the magnitude of exactly one double without a sign.
-/

namespace WhileLang

set_option autoImplicit false

namespace Encoding

open Float.Model (Format UnpackedFloat)
open Float.Model.UnpackedFloat

theorem sign_bits (sign : BitVec 1) : (Sign.ofBitVec sign).toBitVec = sign := by
  revert sign
  decide

theorem components_unpack (bits : BitVec Format.binary64.numBits) :
    packComponents Format.binary64 (Sign.ofBitVec (unpackSign bits)) (unpackExponent bits)
      (unpackMantissa bits) = bits := by
  rw [packComponents, sign_bits]
  apply BitVec.eq_of_getLsbD_eq
  intro index bound
  have whole : index < 64 := bound
  simp only [unpackSign, unpackExponent, unpackMantissa, BitVec.getLsbD_append, BitVec.getLsbD_cast,
    BitVec.getLsbD_extractLsb]
  by_cases low : index < 52
  · simp [low]
  by_cases middle : index - 52 < 11
  · have back : 52 + (index - 52) = index := by omega
    simp [low, middle, back]
  · have top : index = 63 := by omega
    subst top
    simp only [BitVec.getLsbD_eq_getElem whole]
    simp

theorem pack_normal (sign : Sign) (exponent : BitVec 11) (mantissa : BitVec 52)
    (highest : exponent ≠ -1#_) (positive : 0 < (1#1 ++ mantissa).toNat) :
    pack Format.binary64 (.finite sign (1#1 ++ mantissa).toNat
        (exponent.toNat - (Format.binary64.exponentBias +
          Format.binary64.mantissaBitsWithoutImplicit))
        positive) =
      packComponents Format.binary64 sign exponent mantissa := by
  have bound := mantissa.isLt
  have value : (1#1 ++ mantissa).toNat = 2 ^ 52 + mantissa.toNat := by
    rw [BitVec.toNat_append, ← Nat.shiftLeft_add_eq_or_of_lt bound]
    rfl
  have width : (1#1 ++ mantissa).toNat.log2 + 1 = Format.binary64.mantissaBits := by
    have log : (1#1 ++ mantissa).toNat.log2 = 52 := by
      apply (Nat.log2_eq_iff (by omega)).mpr
      omega
    rw [log]
    rfl
  have biased : ((exponent.toNat : Int) -
      (Format.binary64.exponentBias + Format.binary64.mantissaBitsWithoutImplicit) +
        Format.binary64.exponentBias + Format.binary64.mantissaBitsWithoutImplicit).toNat =
      exponent.toNat := by
    omega
  have inside : ¬2 ^ Format.binary64.exponentBits ≤ exponent.toNat + 1 := by
    have below := exponent.isLt
    have other : exponent.toNat ≠ 2047 := fun same => highest (BitVec.eq_of_toNat_eq same)
    have total : 2 ^ Format.binary64.exponentBits = 2048 := rfl
    omega
  have stripped : BitVec.ofNat 52 (2 ^ 52 + mantissa.toNat) = mantissa := by
    apply BitVec.eq_of_toNat_eq
    rw [BitVec.toNat_ofNat]
    omega
  rw [pack]
  dsimp only
  rw [biased, if_neg inside, if_pos width, value, stripped, BitVec.ofNat_toNat, BitVec.setWidth_eq]

theorem pack_subnormal (sign : Sign) (mantissa : BitVec 52) (positive : 0 < mantissa.toNat) :
    pack Format.binary64 (.finite sign mantissa.toNat
        ((0#11).toNat - (Format.binary64.exponentBias +
          Format.binary64.mantissaBitsWithoutImplicit) + 1)
        positive) =
      packComponents Format.binary64 sign 0#_ mantissa := by
  have bound := mantissa.isLt
  have narrow : ¬mantissa.toNat.log2 + 1 = Format.binary64.mantissaBits := by
    have log : mantissa.toNat.log2 < 52 := (Nat.log2_lt (by omega)).mpr bound
    have total : Format.binary64.mantissaBits = 53 := rfl
    omega
  rw [pack]
  dsimp only
  rw [if_neg (by decide), if_neg narrow, BitVec.ofNat_toNat, BitVec.setWidth_eq]

theorem pack_unpack {bits : BitVec Format.binary64.numBits} (valid : Format.binary64.Valid bits) :
    pack Format.binary64 (UnpackedFloat.unpack Format.binary64 bits) = bits := by
  have whole := components_unpack bits
  unfold UnpackedFloat.unpack
  dsimp only
  by_cases highest : unpackExponent bits = -1#_
  · by_cases empty : unpackMantissa bits = 0#_
    · rw [highest, empty] at whole
      rw [if_pos highest, if_pos empty]
      exact whole
    · rw [if_pos highest, if_neg empty]
      exact (valid.eq_packedNaN highest empty).symm
  rw [if_neg highest]
  by_cases lowest : unpackExponent bits = 0#_
  · rw [lowest] at whole
    by_cases empty : unpackMantissa bits = 0#_
    · rw [empty] at whole
      rw [if_pos lowest, dif_pos empty]
      exact whole
    · rw [if_pos lowest, dif_neg empty, lowest]
      exact (pack_subnormal _ _ _).trans whole
  · rw [if_neg lowest]
    exact (pack_normal _ _ _ highest _).trans whole

theorem to_bits_of_bits {bits : UInt64} (valid : Format.binary64.Valid bits.toBitVec) :
    (Float.ofBits bits).toBits = bits := by
  apply UInt64.toBitVec_inj.mp
  exact pack_unpack valid

theorem eq_of_to_bits {left right : Float} (same : left.toBits = right.toBits) : left = right := by
  cases left with
  | ofModel first =>
    cases right with
    | ofModel second =>
      cases first
      cases second
      cases same
      rfl

theorem exponent_to_nat (bits : BitVec Format.binary64.numBits) :
    (unpackExponent bits).toNat = bits.toNat / 2 ^ 52 % 2 ^ 11 := by
  rw [unpackExponent, BitVec.toNat_cast, BitVec.extractLsb_toNat, Nat.shiftRight_eq_div_pow]
  rfl

theorem mantissa_to_nat (bits : BitVec Format.binary64.numBits) :
    (unpackMantissa bits).toNat = bits.toNat % 2 ^ 52 := by
  rw [unpackMantissa, BitVec.toNat_cast, BitVec.extractLsb_toNat]
  rfl

theorem valid_of_le_infinity {bits : Nat} (range : bits < 2 ^ 64)
    (bound : bits % 2 ^ 63 ≤ Magnitude.infinity) :
    Format.binary64.Valid (UInt64.ofNat bits).toBitVec := by
  have top : Magnitude.infinity = 2047 * 2 ^ 52 := rfl
  have same : (UInt64.ofNat bits).toBitVec.toNat = bits := Nat.mod_eq_of_lt range
  apply Format.Valid.mk
  intro highest nonzero
  have exponent := congrArg BitVec.toNat highest
  rw [exponent_to_nat, same] at exponent
  have largest : (-1#(Format.binary64.exponentBits)).toNat = 2047 := rfl
  have exact : bits % 2 ^ 52 = 0 := by omega
  apply absurd _ nonzero
  apply BitVec.eq_of_toNat_eq
  rw [mantissa_to_nat, same, exact]
  rfl

section Classes

variable (bits : BitVec Format.binary64.numBits)

theorem exponent_highest_iff :
    unpackExponent bits = -1#_ ↔ Magnitude.infinity ≤ bits.toNat % 2 ^ 63 := by
  have top : Magnitude.infinity = 2047 * 2 ^ 52 := rfl
  have largest : (-1#(Format.binary64.exponentBits)).toNat = 2047 := rfl
  rw [← BitVec.toNat_inj, exponent_to_nat]
  omega

theorem mantissa_empty_iff : unpackMantissa bits = 0#_ ↔ bits.toNat % 2 ^ 52 = 0 := by
  rw [← BitVec.toNat_inj, mantissa_to_nat]
  rfl

theorem unpack_finite_iff :
    (UnpackedFloat.unpack Format.binary64 bits).isFinite = true ↔
      bits.toNat % 2 ^ 63 < Magnitude.infinity := by
  rw [← Nat.not_le, ← exponent_highest_iff]
  unfold UnpackedFloat.unpack
  dsimp only
  split
  · split <;> simp_all [isFinite]
  · split
    · split <;> simp_all [isFinite]
    · simp_all [isFinite]

theorem unpack_nan_iff :
    (UnpackedFloat.unpack Format.binary64 bits).isNaN = true ↔
      Magnitude.infinity < bits.toNat % 2 ^ 63 := by
  have top : Magnitude.infinity = 2047 * 2 ^ 52 := rfl
  have highest := exponent_highest_iff bits
  have empty := mantissa_empty_iff bits
  have parts : Magnitude.infinity < bits.toNat % 2 ^ 63 ↔
      unpackExponent bits = -1#_ ∧ ¬unpackMantissa bits = 0#_ := by
    rw [highest, empty]
    omega
  rw [parts]
  unfold UnpackedFloat.unpack
  dsimp only
  split
  · split <;> simp_all [isNaN]
  · split
    · split <;> simp_all [isNaN]
    · simp_all [isNaN]

end Classes

theorem is_finite_iff (value : Float) :
    value.isFinite = true ↔ magnitude value < Magnitude.infinity :=
  unpack_finite_iff value.toModel.toBits.toBitVec

theorem is_nan_iff (value : Float) :
    value.isNaN = true ↔ Magnitude.infinity < magnitude value :=
  unpack_nan_iff value.toModel.toBits.toBitVec

end Encoding

variable {code : Nat}

theorem to_bits_of_magnitude (negative : Bool) (bound : code ≤ Magnitude.infinity) :
    (floatOfMagnitude negative code).toBits.toNat =
      if negative then Nat.pow 2 63 + code else code := by
  have top : Magnitude.infinity < 2 ^ 63 := by decide
  have sign : Nat.pow 2 63 = 2 ^ 63 := rfl
  have range : (if negative then Nat.pow 2 63 + code else code) < 2 ^ 64 := by
    split <;> omega
  have size : (if negative then Nat.pow 2 63 + code else code) % 2 ^ 63 ≤ Magnitude.infinity := by
    split <;> omega
  rw [floatOfMagnitude, Encoding.to_bits_of_bits (Encoding.valid_of_le_infinity range size)]
  exact Nat.mod_eq_of_lt range

theorem magnitude_of_magnitude (negative : Bool) (bound : code ≤ Magnitude.infinity) :
    magnitude (floatOfMagnitude negative code) = code := by
  have top : Magnitude.infinity < 2 ^ 63 := by decide
  have sign : Nat.pow 2 63 = 2 ^ 63 := rfl
  rw [magnitude, to_bits_of_magnitude negative bound, sign]
  split <;> omega

theorem is_negative_of_magnitude (negative : Bool) (bound : code ≤ Magnitude.infinity) :
    isNegative (floatOfMagnitude negative code) = negative := by
  have top : Magnitude.infinity < 2 ^ 63 := by decide
  have sign : Nat.pow 2 63 = 2 ^ 63 := rfl
  rw [isNegative, to_bits_of_magnitude negative bound]
  cases negative with
  | false => exact decide_eq_false (by simp; omega)
  | true => exact decide_eq_true (by simp)

/-- A double that is a number is determined by its sign and its magnitude. -/
theorem eq_of_magnitude {value : Float} (bound : magnitude value ≤ Magnitude.infinity) :
    value = floatOfMagnitude (isNegative value) (magnitude value) := by
  have range := value.toBits.toNat_lt
  have sign : Nat.pow 2 63 = 2 ^ 63 := rfl
  apply Encoding.eq_of_to_bits
  apply UInt64.toNat_inj.mp
  rw [to_bits_of_magnitude _ bound, isNegative, magnitude, sign]
  simp only [decide_eq_true_eq]
  split <;> omega

end WhileLang
