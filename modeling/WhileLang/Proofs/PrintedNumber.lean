import WhileLang.Proofs.NearestDouble
import WhileLang.Proofs.ShortestDigits

/-!
# Printed numbers

A number is printed without an exponent and without a zero that could be left out (`Plain`): the
decimal found for a double has no zero at its end, for else a coarser grid would have been found.
Its digits are the fewest with which the double can be written, and no other decimal with as many of
them is nearer.
-/

namespace WhileLang

set_option autoImplicit false

open Decimal (digitCount)
open Numeral (pointed)

/-- The text is that of the number, with no zero in front of the whole part or at the end of the
fraction that could be left out. -/
inductive Plain : List Char → ℚ → Prop where
  | digits {whole fraction : List Char} (nonempty : whole ≠ [])
      (all : ∀ char ∈ whole, isDigit char = true) (first : whole.head? = some '0' → whole = ['0'])
      (further : ∀ char ∈ fraction, isDigit char = true) (last : fraction.getLast? ≠ some '0') :
      Plain (whole ++ pointed fraction)
        (Nat.ofDigitChars 10 (whole ++ fraction) 0 / 10 ^ fraction.length)

theorem digit_char_eq_zero {digit : Nat} (small : digit < 10) (same : Nat.digitChar digit = '0') :
    digit = 0 := by
  interval_cases digit <;> simp_all

theorem head_to_digits {number : Nat} (positive : 0 < number) :
    (Nat.toDigits 10 number).head? ≠ some '0' := by
  induction number using Nat.strongRecOn with
  | _ number induction =>
    rw [Nat.toDigits_eq_if (by decide)]
    split
    next small =>
      intro zero
      have digit := digit_char_eq_zero small (Option.some.inj zero)
      omega
    next large =>
      rw [List.head?_append_of_ne_nil _ Nat.toDigits_ne_nil]
      exact induction (number / 10) (by omega) (by omega)

theorem last_to_digits {number : Nat} (ends : ¬10 ∣ number) :
    (Nat.toDigits 10 number).getLast? ≠ some '0' := by
  rw [Nat.toDigits_eq_if (by decide)]
  split
  next small =>
    intro zero
    have digit := digit_char_eq_zero small (Option.some.inj zero)
    omega
  next large =>
    rw [List.getLast?_concat]
    intro zero
    have digit := digit_char_eq_zero (Nat.mod_lt number (by decide)) (Option.some.inj zero)
    omega

theorem Decimal.positional_plain {decimal : Decimal} (ends : ¬10 ∣ decimal.digits) :
    Plain decimal.positional decimal.value := by
  obtain ⟨whole, fraction, text, parts⟩ := decimal.positional_parts
  have positive : 0 < decimal.digits := by omega
  have number :
      decimal.value = Nat.ofDigitChars 10 (whole ++ fraction) 0 / 10 ^ fraction.length := by
    have read : Nat.ofDigitChars 10 (whole ++ fraction) 0 =
        decimal.digits * 10 ^ decimal.exponent.toNat := parts.number
    have places : decimal.exponent = decimal.exponent.toNat - (-decimal.exponent).toNat := by omega
    rw [read, parts.places, Decimal.value, Nat.cast_mul, Nat.cast_pow, mul_div_assoc]
    nth_rewrite 1 [places]
    rw [zpow_sub₀ (by norm_num), zpow_natCast, zpow_natCast]
    norm_cast
  rw [text, number]
  refine .digits parts.nonempty parts.digits (fun zero => ?_) parts.further (fun zero => ?_)
  · rcases parts.first with only | same
    · exact only
    · exact absurd (same.symm.trans zero) (head_to_digits positive)
  · rcases parts.last with none | same
    · rw [none] at zero
      cases zero
    · exact last_to_digits ends (same.symm.trans zero)

section Printing

variable {value : Float} {decimal : Decimal} {negative : Bool}

theorem RoundsTo.reads (rounds : RoundsTo (signed negative decimal.value) value)
    (finite : magnitude value < Magnitude.infinity) (nonzero : magnitude value ≠ 0) :
    signed negative decimal.value = signed (isNegative value) decimal.value ∧
      decimal.code = magnitude value := by
  obtain ⟨sign, size⟩ := rounds.rounds finite nonzero
  rw [abs_signed, abs_of_nonneg decimal.value_nonneg] at sign size
  exact ⟨sign, decimal.code_rounds.unique size⟩

theorem RoundsTo.of_reads (same : decimal.code = magnitude value)
    (finite : magnitude value < Magnitude.infinity) :
    RoundsTo (signed (isNegative value) decimal.value) value := by
  have rounds := decimal.code_rounds
  rw [same] at rounds
  have nearest := RoundsTo.of_rounds (isNegative value) decimal.value_nonneg rounds
  rwa [← eq_of_magnitude finite.le] at nearest

end Printing

/-- A finite double other than zero is printed as a plain text of a decimal that reads as it, with a
sign in front if it is negative. No decimal with fewer digits reads as the double, and none with as
many digits that does is nearer. -/
theorem print_number_shortest (value : Float) (finite : value.isFinite = true)
    (nonzero : exactValue value ≠ 0) :
    ∃ (text : List Char) (decimal : Decimal),
      (printNumber value).toList = (if isNegative value then '-' :: text else text) ∧
      Plain text decimal.value ∧ ¬10 ∣ decimal.digits ∧
      RoundsTo (signed (isNegative value) decimal.value) value ∧
      ∀ (negative : Bool) (other : Decimal), RoundsTo (signed negative other.value) value →
        digitCount decimal.digits ≤ digitCount other.digits ∧
          (digitCount other.digits = digitCount decimal.digits →
            |signed (isNegative value) decimal.value - exactValue value| ≤
              |signed negative other.value - exactValue value|) := by
  rw [Encoding.is_finite_iff] at finite
  have exact := exact_value_eq finite
  have proper : magnitude value ≠ 0 := by
    intro zero
    exact nonzero (by rw [exact, zero, Magnitude.size_zero]; simp [signed])
  have found := Decimal.shortest_coarsest .up finite proper
  refine ⟨_, Decimal.shortest .up (magnitude value), ?_, Decimal.positional_plain found.not_dvd,
    found.not_dvd, .of_reads found.reads finite, fun negative other rounds => ?_⟩
  · rw [printNumber, NumberStyle.write_finite finite]
    simp [proper, NumberStyle.printed]
  · obtain ⟨sign, reads⟩ := rounds.reads finite proper
    refine ⟨found.fewest proper reads, fun same => ?_⟩
    rw [sign, exact, abs_signed_sub, abs_signed_sub]
    exact found.nearest_of_count finite proper reads same

/-- Two units below zero, where `9e-324` has one digit as well but `1e-323` is nearer. -/
theorem print_number_shortest_subnormal :
    (floatOfMagnitude true 2).isFinite = true ∧ exactValue (floatOfMagnitude true 2) ≠ 0 ∧
    ∃ (text : List Char) (decimal : Decimal),
      (printNumber (floatOfMagnitude true 2)).toList =
        (if isNegative (floatOfMagnitude true 2) then '-' :: text else text) ∧
      Plain text decimal.value ∧ ¬10 ∣ decimal.digits ∧
      RoundsTo (signed (isNegative (floatOfMagnitude true 2)) decimal.value)
        (floatOfMagnitude true 2) ∧
      ∀ (negative : Bool) (other : Decimal),
        RoundsTo (signed negative other.value) (floatOfMagnitude true 2) →
        digitCount decimal.digits ≤ digitCount other.digits ∧
          (digitCount other.digits = digitCount decimal.digits →
            |signed (isNegative (floatOfMagnitude true 2)) decimal.value -
                exactValue (floatOfMagnitude true 2)| ≤
              |signed negative other.value - exactValue (floatOfMagnitude true 2)|) := by
  have small : 2 < Magnitude.infinity := by decide
  have finite := is_finite_of_magnitude true small
  have nonzero : exactValue (floatOfMagnitude true 2) ≠ 0 := by
    have positive : Magnitude.size 0 < Magnitude.size 2 := Magnitude.size_strict_mono Nat.two_pos
    rw [Magnitude.size_zero] at positive
    rw [exact_value_of_magnitude true small]
    simp [signed, positive.ne']
  exact ⟨finite, nonzero, print_number_shortest _ finite nonzero⟩

end WhileLang
