import WhileLang.Proofs.ReadBack
import WhileLang.Proofs.Recognition
import WhileLang.Proofs.Rounding

/-!
# Nearest doubles

A number rounds to the finite double nearest to it, of two equally near ones to that with the even
significand, and from `Magnitude.limit` on to an infinity (`RoundsTo`). This is said of doubles and
their exact values, with no mention of codes; the sign aside it is the rounding of codes. A numeral
in a program, however long, is the double that its number rounds to.
-/

namespace WhileLang

set_option autoImplicit false

/-- Reading the number rounds it to this double. -/
inductive RoundsTo (number : ℚ) (value : Float) : Prop where
  | overflow (large : Magnitude.limit ≤ |number|)
      (infinite : value.toModel.unpack = .infinity (if number < 0 then .negative else .positive))
  | finite (small : |number| < Magnitude.limit) (finite : value.isFinite = true)
      (nearest : ∀ other : Float, other.isFinite = true →
        |exactValue value - number| ≤ |exactValue other - number|)
      (even : ∀ other : Float, other.isFinite = true → exactValue other ≠ exactValue value →
        |exactValue value - number| = |exactValue other - number| → significand value % 2 = 0)

section Signs

variable (negative other : Bool) (number second : ℚ)

theorem signed_signed : signed negative (signed negative number) = number := by
  cases negative <;> simp [signed]

theorem abs_signed : |signed negative number| = |number| := by
  cases negative <;> simp [signed]

theorem abs_signed_sub : |signed negative number - signed negative second| = |number - second| := by
  cases negative with
  | false => rfl
  | true =>
    have turned : signed true number - signed true second = -(number - second) := by
      simp only [signed, if_pos]
      ring
    rw [turned, abs_neg]

theorem abs_signed_add {number second : ℚ} (differs : negative ≠ other) (first : 0 ≤ number)
    (last : 0 ≤ second) : |signed negative number - signed other second| = number + second := by
  have sum : 0 ≤ number + second := add_nonneg first last
  cases negative <;> cases other
  · exact absurd rfl differs
  · have same : signed false number - signed true second = number + second := by simp [signed]
    rw [same, abs_of_nonneg sum]
  · have same : signed true number - signed false second = -(number + second) := by
      simp [signed]
      ring
    rw [same, abs_neg, abs_of_nonneg sum]
  · exact absurd rfl differs

theorem abs_sub_le_signed {number second : ℚ} (first : 0 ≤ number) (last : 0 ≤ second) :
    |number - second| ≤ |signed negative number - signed other second| := by
  by_cases same : negative = other
  · rw [same, abs_signed_sub]
  · rw [abs_signed_add negative other same first last, abs_le]
    constructor <;> linarith

end Signs

namespace Magnitude

theorem size_nonneg (code : Nat) : 0 ≤ size code := by
  rw [← size_zero]
  exact size_strict_mono.monotone (Nat.zero_le code)

theorem limit_positive : 0 < limit := by
  have highest : size 0 < size infinity := size_strict_mono (by decide)
  linarith [limit_eq, size_zero, size_nonneg (infinity - 1)]

/-- A size as near to a number as its negative is zero, for zero is nearer than that. -/
theorem IsNearest.size_eq_zero {code : Nat} {number : ℚ} (nearest : IsNearest number code)
    (nonnegative : 0 ≤ number)
    (same : |size code - number| = size code + number) : size code = 0 := by
  have zero := nearest.nearest 0 (by decide)
  rw [size_zero, zero_sub, abs_neg, abs_of_nonneg nonnegative, same] at zero
  exact le_antisymm (by linarith) (size_nonneg code)

end Magnitude

section Codes

variable {code : Nat} {number : ℚ} {value : Float}

theorem exact_value_of_magnitude (negative : Bool) (finite : code < Magnitude.infinity) :
    exactValue (floatOfMagnitude negative code) = signed negative (Magnitude.size code) := by
  have same := magnitude_of_magnitude negative finite.le
  rw [exact_value_eq (by rwa [same]), same, is_negative_of_magnitude negative finite.le]

theorem is_finite_of_magnitude (negative : Bool) (finite : code < Magnitude.infinity) :
    (floatOfMagnitude negative code).isFinite = true := by
  rw [Encoding.is_finite_iff, magnitude_of_magnitude negative finite.le]
  exact finite

theorem unpack_of_infinite (infinite : magnitude value = Magnitude.infinity) :
    value.toModel.unpack = .infinity (if isNegative value then .negative else .positive) := by
  rw [← Encoding.unpack_sign]
  exact Encoding.unpack_infinite value.toModel.toBits.toBitVec infinite

theorem RoundsTo.of_rounds (negative : Bool) (nonnegative : 0 ≤ number)
    (rounds : Magnitude.Rounds number code) :
    RoundsTo (signed negative number) (floatOfMagnitude negative code) := by
  have size : |signed negative number| = number := by rw [abs_signed, abs_of_nonneg nonnegative]
  cases rounds with
  | overflow large top =>
    have positive := Magnitude.limit_positive.trans_le large
    have sign : signed negative number < 0 ↔ negative = true := by
      cases negative with
      | false => simp [signed, nonnegative]
      | true => simp [signed, positive]
    refine .overflow (by rwa [size]) ?_
    subst top
    have bound := Nat.le_refl Magnitude.infinity
    rw [unpack_of_infinite (magnitude_of_magnitude negative bound),
      is_negative_of_magnitude negative bound]
    simp only [sign]
  | finite small nearest =>
    have exact := exact_value_of_magnitude negative nearest.finite
    refine .finite (by rwa [size]) (is_finite_of_magnitude negative nearest.finite) ?_ ?_
    · intro other finite
      rw [Encoding.is_finite_iff] at finite
      rw [exact, exact_value_eq finite, abs_signed_sub]
      exact (nearest.nearest _ finite).trans
        (abs_sub_le_signed _ _ (Magnitude.size_nonneg _) nonnegative)
    · intro other finite differs same
      rw [Encoding.is_finite_iff] at finite
      have code' := magnitude_of_magnitude negative nearest.finite.le
      rw [significand_parity (by rw [code']; exact nearest.finite), code']
      rw [exact, exact_value_eq finite] at differs
      rw [exact, exact_value_eq finite, abs_signed_sub] at same
      have apart :=
        abs_sub_le_signed (isNegative other) negative (Magnitude.size_nonneg (magnitude other))
        nonnegative
      by_cases twin : magnitude other = code
      · -- A twin with the other sign is farther away, unless both are zero.
        have opposite : isNegative other ≠ negative := by
          intro alike
          exact differs (by rw [twin, alike])
        rw [twin, abs_signed_add _ _ opposite (Magnitude.size_nonneg code) nonnegative] at same
        have nothing := nearest.size_eq_zero nonnegative same
        exact absurd (by simp [twin, nothing, signed]) differs
      · exact nearest.even _ finite twin
          (le_antisymm (nearest.nearest _ finite) (by rw [same]; exact apart))

theorem RoundsTo.rounds (rounds : RoundsTo number value)
    (finite : magnitude value < Magnitude.infinity) (nonzero : magnitude value ≠ 0) :
    number = signed (isNegative value) |number| ∧ Magnitude.Rounds |number| (magnitude value) := by
  have exact := exact_value_eq finite
  have positive : 0 < Magnitude.size (magnitude value) := by
    rw [← Magnitude.size_zero]
    exact Magnitude.size_strict_mono (Nat.pos_of_ne_zero nonzero)
  cases rounds with
  | overflow large infinite =>
    have contrary : value.isFinite = false := by
      change value.toModel.unpack.isFinite = false
      rw [infinite]
      rfl
    rw [(Encoding.is_finite_iff value).mpr finite] at contrary
    cases contrary
  | finite small _ nearest even =>
    obtain ⟨turned, same⟩ : ∃ turned, number = signed (isNegative value) turned :=
      ⟨signed (isNegative value) number, (signed_signed _ _).symm⟩
    have distance : ∀ code, code < Magnitude.infinity →
        |exactValue (floatOfMagnitude (isNegative value) code) - number| =
          |Magnitude.size code - turned| := by
      intro code below
      rw [exact_value_of_magnitude _ below, same, abs_signed_sub]
    have here : |exactValue value - number| = |Magnitude.size (magnitude value) - turned| := by
      rw [exact, same, abs_signed_sub]
    have nonnegative : 0 ≤ turned := by
      by_contra below
      have zero :=
        nearest _ (is_finite_of_magnitude (isNegative value)
          (show 0 < Magnitude.infinity by decide))
      rw [here, distance 0 (by decide), Magnitude.size_zero, zero_sub, abs_of_pos (by linarith),
        abs_of_pos (by linarith)] at zero
      linarith
    have size : |number| = turned := by rw [same, abs_signed, abs_of_nonneg nonnegative]
    rw [size]
    refine ⟨same,
      .finite (by rwa [← size]) ⟨finite, fun code below => ?_, fun code below other tie => ?_⟩⟩
    · rw [← here, ← distance code below]
      exact nearest _ (is_finite_of_magnitude _ below)
    · rw [← significand_parity finite]
      apply even _ (is_finite_of_magnitude (isNegative value) below)
      · rw [exact, exact_value_of_magnitude _ below]
        intro alike
        have sizes := congrArg (signed (isNegative value)) alike
        rw [signed_signed, signed_signed] at sizes
        exact other (Magnitude.size_strict_mono.injective sizes)
      · rw [here, distance code below, tie]

end Codes

theorem numeral_value_rounds (digits : List Char) :
    RoundsTo (digitsValue digits) (numeralValue digits) := by
  have rounds := Decimal.code_rounds ⟨digitsValue digits, 0⟩
  have value : Decimal.value ⟨digitsValue digits, 0⟩ = digitsValue digits := by simp [Decimal.value]
  rw [value] at rounds
  exact RoundsTo.of_rounds false (Nat.cast_nonneg _) rounds

theorem shows_digits {text : String} (nonempty : text ≠ "")
    (all : ∀ char ∈ text.toList, isDigit char = true) :
    Shows (text ++ ";").toList [.numeral text, .symbol ";"] := by
  have written : (Word.numeral text).Written := by
    have digits := written_digits (by simpa using nonempty) all
    rwa [String.ofList_toList] at digits
  have semicolon : ";" ∈ ["(", ")", ";", "\x7b", "\x7d"] := by decide
  have done : Shows [] [] := .done (by simp [Blank])
  have parted := (loose_bracket semicolon []).parted text.toList
  rw [String.toList_append]
  exact .word written parted (.bracket semicolon done)

theorem parse_digits {text : String} (nonempty : text ≠ "")
    (all : ∀ char ∈ text.toList, isDigit char = true) :
    parse (text ++ ";") = .ok (.literal (numeralValue text.toList)) := by
  have statement := Derives.evaluate (Derives.literal text).of_factor
  exact parse_of_shows (shows_digits nonempty all) ⟨_, .more statement .none, .single _⟩

/-- A numeral of any length is read as the double that its number rounds to, which has no sign;
zeros in front of it make no difference. -/
theorem parse_numeral_rounds (text : String) (nonempty : text ≠ "")
    (all : ∀ char ∈ text.toList, isDigit char = true) :
    ∃ value, parse (text ++ ";") = .ok (.literal value) ∧ isNegative value = false ∧
      RoundsTo (Nat.ofDigitChars 10 text.toList 0) value ∧
      ∀ zeros, parse (String.ofList (List.replicate zeros '0') ++ text ++ ";") =
        .ok (.literal value) := by
  refine ⟨_, parse_digits nonempty all, ?_, numeral_value_rounds text.toList, fun zeros => ?_⟩
  · exact is_negative_of_magnitude false (Decimal.code_rounds _).le_infinity
  · have longer : (String.ofList (List.replicate zeros '0') ++ text).toList =
        List.replicate zeros '0' ++ text.toList := by simp
    rw [parse_digits (by simp [nonempty]), numeralValue, longer, digits_value_leading_zeros,
      numeralValue]
    rw [longer]
    intro char member
    rcases List.mem_append.mp member with zero | digit
    · rw [List.eq_of_mem_replicate zero]
      rfl
    · exact all char digit

/-- Halfway between two doubles. -/
theorem parse_numeral_rounds_halfway :
    "9007199254740993" ≠ "" ∧ (∀ char ∈ "9007199254740993".toList, isDigit char = true) ∧
      ∃ value, parse ("9007199254740993" ++ ";") = .ok (.literal value) ∧ isNegative value = false ∧
        RoundsTo (Nat.ofDigitChars 10 "9007199254740993".toList 0) value ∧
        ∀ zeros, parse (String.ofList (List.replicate zeros '0') ++ "9007199254740993" ++ ";") =
          .ok (.literal value) := by
  have all : ∀ char ∈ "9007199254740993".toList, isDigit char = true := by simp [isDigit]
  exact ⟨by decide, all, parse_numeral_rounds "9007199254740993" (by decide) all⟩

end WhileLang
