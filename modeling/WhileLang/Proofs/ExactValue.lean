import Mathlib
import WhileLang.Proofs.Encoding
import WhileLang.Proofs.WholeNumber

/-!
# Exact values

A finite double is a rational number, its significand times a power of two with its sign
(`exactValue`). Its magnitude is the code of that number without the sign, and the code has the
parity of the significand.
-/

namespace WhileLang

set_option autoImplicit false

open Float.Model (Format UnpackedFloat)
open Float.Model.UnpackedFloat

/-- The rational number that a finite double is. -/
def exactValue (value : Float) : ℚ :=
  match value.toModel.unpack with
  | .finite sign mantissa exponent _ => sign.apply mantissa * 2 ^ exponent
  | _ => 0

/-- The significand of a finite double, with the leading bit. -/
def significand (value : Float) : Nat :=
  match value.toModel.unpack with
  | .finite _ mantissa _ _ => mantissa
  | _ => 0

def Magnitude.size (code : Nat) : ℚ :=
  units code / unitsPerOne

def signed (negative : Bool) (number : ℚ) : ℚ :=
  if negative then -number else number

theorem Magnitude.units_per_one_positive : (0 : ℚ) < unitsPerOne := by
  obtain ⟨places, same⟩ : ∃ places, places = 1074 := ⟨_, rfl⟩
  rw [units_per_one_eq same]
  exact_mod_cast power_positive places

theorem Magnitude.size_zero : size 0 = 0 := by
  have nothing : units 0 = 0 := if_pos stride_positive
  rw [size, nothing, Nat.cast_zero, zero_div]

theorem Magnitude.scaled_units (significand scale : Nat) :
    ((significand * Nat.pow 2 scale : Nat) : ℚ) / unitsPerOne =
      significand * 2 ^ ((scale : Int) - 1074) := by
  obtain ⟨places, same⟩ : ∃ places, places = 1074 := ⟨_, rfl⟩
  have exponent : (scale : Int) - 1074 = (scale : Int) - (places : Nat) := by omega
  have power : ∀ count : Nat, ((Nat.pow 2 count : Nat) : ℚ) = 2 ^ count := by
    intro count
    exact Nat.cast_pow 2 count
  rw [exponent, zpow_sub₀ two_ne_zero, zpow_natCast, zpow_natCast, units_per_one_eq same,
    Nat.cast_mul, power, power, mul_div_assoc]

namespace Encoding

theorem sign_to_nat (bits : BitVec Format.binary64.numBits) :
    (unpackSign bits).toNat = bits.toNat / 2 ^ 63 := by
  have bound : bits.toNat < 2 ^ 64 := bits.isLt
  have shifted : (unpackSign bits).toNat = bits.toNat / 2 ^ 63 % 2 ^ 1 := by
    rw [unpackSign, BitVec.toNat_cast, BitVec.extractLsb_toNat, Nat.shiftRight_eq_div_pow]
    rfl
  rw [shifted]
  omega

theorem code_parts (bits : BitVec Format.binary64.numBits) :
    bits.toNat % 2 ^ 63 = (unpackExponent bits).toNat * 2 ^ 52 + (unpackMantissa bits).toNat := by
  rw [exponent_to_nat bits, mantissa_to_nat bits]
  generalize bits.toNat = number
  omega

theorem size_of_lowest {bits : BitVec Format.binary64.numBits}
    (lowest : unpackExponent bits = 0#_) :
    Magnitude.size (bits.toNat % 2 ^ 63) = (unpackMantissa bits).toNat * 2 ^ (-1074 : Int) := by
  have stride : Magnitude.stride = 2 ^ 52 := rfl
  have bound : (unpackMantissa bits).toNat < 2 ^ 52 := (unpackMantissa bits).isLt
  have code : bits.toNat % 2 ^ 63 = (unpackMantissa bits).toNat := by
    rw [code_parts, lowest]
    exact Nat.zero_add _
  have units :
      Magnitude.units (bits.toNat % 2 ^ 63) = (unpackMantissa bits).toNat * Nat.pow 2 0 := by
    rw [Magnitude.units, if_pos (by omega), code]
    exact (Nat.mul_one _).symm
  rw [Magnitude.size, units, Magnitude.scaled_units]
  rfl

theorem leading_to_nat (bits : BitVec Format.binary64.numBits) :
    (1#1 ++ unpackMantissa bits).toNat = 2 ^ 52 + (unpackMantissa bits).toNat := by
  rw [BitVec.toNat_append, ← Nat.shiftLeft_add_eq_or_of_lt (unpackMantissa bits).isLt]
  rfl

theorem size_of_normal {bits : BitVec Format.binary64.numBits} {scale : Nat}
    (normal : (unpackExponent bits).toNat = scale + 1) :
    Magnitude.size (bits.toNat % 2 ^ 63) =
      (1#1 ++ unpackMantissa bits).toNat * 2 ^ ((scale : Int) - 1074) := by
  have stride : Magnitude.stride = 2 ^ 52 := rfl
  have bound : (unpackMantissa bits).toNat < 2 ^ 52 := (unpackMantissa bits).isLt
  have parts := code_parts bits
  have quotient : bits.toNat % 2 ^ 63 / 2 ^ 52 - 1 = scale := by omega
  have rest : bits.toNat % 2 ^ 63 % 2 ^ 52 = (unpackMantissa bits).toNat := by omega
  have units : Magnitude.units (bits.toNat % 2 ^ 63) =
      (1#1 ++ unpackMantissa bits).toNat * Nat.pow 2 scale := by
    rw [Magnitude.units, if_neg (by omega), stride, quotient, rest, leading_to_nat]
  rw [Magnitude.size, units, Magnitude.scaled_units]

/-- The bits of a finite double are those of a zero, or give a significand and a power of two. -/
theorem unpack_finite (bits : BitVec Format.binary64.numBits)
    (finite : bits.toNat % 2 ^ 63 < Magnitude.infinity) :
    (bits.toNat % 2 ^ 63 = 0 ∧
      UnpackedFloat.unpack Format.binary64 bits = .zero (Sign.ofBitVec (unpackSign bits))) ∨
    ∃ mantissa exponent positive,
      UnpackedFloat.unpack Format.binary64 bits =
        .finite (Sign.ofBitVec (unpackSign bits)) mantissa exponent positive ∧
      Magnitude.size (bits.toNat % 2 ^ 63) = mantissa * 2 ^ exponent ∧
      mantissa % 2 = bits.toNat % 2 ^ 63 % 2 := by
  have highest : unpackExponent bits ≠ -1#_ :=
    fun same => absurd ((exponent_highest_iff bits).mp same) (by omega)
  have parts := code_parts bits
  unfold UnpackedFloat.unpack
  dsimp only
  rw [if_neg highest]
  by_cases lowest : unpackExponent bits = 0#_
  · have zero : (unpackExponent bits).toNat = 0 := congrArg BitVec.toNat lowest
    rw [if_pos lowest]
    by_cases nothing : unpackMantissa bits = 0#_
    · have cleared : (unpackMantissa bits).toNat = 0 := congrArg BitVec.toNat nothing
      rw [dif_pos nothing]
      exact .inl ⟨by omega, rfl⟩
    · have positive : 0 < (unpackMantissa bits).toNat :=
        Nat.pos_of_ne_zero fun cleared => nothing (BitVec.toNat_inj.mp cleared)
      have size := size_of_lowest lowest
      rw [dif_neg nothing]
      refine .inr ⟨_, _, positive, rfl, ?_, by omega⟩
      rw [size, lowest]
      rfl
  · obtain ⟨scale, normal⟩ : ∃ scale, (unpackExponent bits).toNat = scale + 1 :=
      Nat.exists_eq_succ_of_ne_zero fun zero => lowest (BitVec.toNat_inj.mp zero)
    have leading := leading_to_nat bits
    have size := size_of_normal normal
    rw [if_neg lowest]
    refine .inr ⟨_, _, by rw [leading]; exact Nat.add_pos_left (by decide) _, rfl, ?_, by omega⟩
    rw [size, normal]
    congr 2
    change (scale : Int) - 1074 = ((scale + 1 : Nat) : Int) - (1023 + 52)
    omega

theorem unpack_infinite (bits : BitVec Format.binary64.numBits)
    (infinite : bits.toNat % 2 ^ 63 = Magnitude.infinity) :
    UnpackedFloat.unpack Format.binary64 bits = .infinity (Sign.ofBitVec (unpackSign bits)) := by
  have top : Magnitude.infinity = 2047 * 2 ^ 52 := rfl
  have highest := (exponent_highest_iff bits).mpr infinite.ge
  have empty := (mantissa_empty_iff bits).mpr (by omega)
  unfold UnpackedFloat.unpack
  dsimp only
  rw [if_pos highest, if_pos empty]

theorem unpack_sign (value : Float) :
    Sign.ofBitVec (@unpackSign Format.binary64 value.toModel.toBits.toBitVec) =
      if isNegative value then .negative else .positive := by
  have bound : value.toModel.toBits.toBitVec.toNat < 2 ^ 64 := value.toModel.toBits.toBitVec.isLt
  have top : isNegative value = decide (2 ^ 63 ≤ value.toModel.toBits.toBitVec.toNat) := rfl
  have clear : @unpackSign Format.binary64 value.toModel.toBits.toBitVec = 0#1 ↔
      isNegative value = false := by
    rw [top, decide_eq_false_iff_not, ← BitVec.toNat_inj, sign_to_nat]
    change value.toModel.toBits.toBitVec.toNat / 2 ^ 63 = 0 ↔ _
    omega
  unfold Sign.ofBitVec
  cases negative : isNegative value with
  | false => rw [if_pos (clear.mpr negative), if_neg Bool.false_ne_true]
  | true => rw [if_neg (by simp [clear, negative]), if_pos rfl]

end Encoding

theorem exact_value_eq {value : Float} (finite : magnitude value < Magnitude.infinity) :
    exactValue value = signed (isNegative value) (Magnitude.size (magnitude value)) := by
  unfold exactValue
  rcases Encoding.unpack_finite value.toModel.toBits.toBitVec finite with
    ⟨zero, unpacked⟩ | ⟨mantissa, exponent, positive, unpacked, size, _⟩
  · have code : magnitude value = 0 := zero
    rw [Float.Model.unpack, unpacked, code, Magnitude.size_zero, signed, neg_zero, ite_self]
  · have code : Magnitude.size (magnitude value) = mantissa * 2 ^ exponent := size
    rw [Float.Model.unpack, unpacked, code]
    dsimp only
    rw [Encoding.unpack_sign, signed]
    cases isNegative value <;> simp [Sign.apply]

theorem significand_parity {value : Float} (finite : magnitude value < Magnitude.infinity) :
    significand value % 2 = magnitude value % 2 := by
  unfold significand
  rcases Encoding.unpack_finite value.toModel.toBits.toBitVec finite with
    ⟨zero, unpacked⟩ | ⟨mantissa, exponent, positive, unpacked, _, parity⟩
  · have code : magnitude value = 0 := zero
    rw [Float.Model.unpack, unpacked, code]
  · rw [Float.Model.unpack, unpacked]
    exact parity

end WhileLang
