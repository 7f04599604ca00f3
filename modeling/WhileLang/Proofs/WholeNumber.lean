import WhileLang.Number.Layout
import WhileLang.Number.Numeral
import WhileLang.Proofs.Encoding
import WhileLang.Proofs.Lexeme

/-!
# Whole numbers

Numerals have no point and no exponent, so the double nearest to one is a whole number, or infinity.
Conversely every double that is a whole number has a numeral, and the text shown of it is one.
-/

namespace WhileLang

set_option autoImplicit false

namespace Magnitude

theorem stride_positive : 0 < stride := by decide

theorem power_split {low high : Nat} (ordered : low ≤ high) :
    Nat.pow 2 high = Nat.pow 2 (high - low) * Nat.pow 2 low := by
  have sum : high - low + low = high := by omega
  have split : Nat.pow 2 (high - low + low) = Nat.pow 2 (high - low) * Nat.pow 2 low :=
    Nat.pow_add 2 _ _
  rwa [sum] at split

-- The exponent is kept as a variable, since a power as large as this is not evaluated on sight.
theorem units_per_one_eq {places : Nat} (same : places = 1074) :
    unitsPerOne = Nat.pow 2 places := by
  subst same
  decide +kernel

theorem power_positive (exponent : Nat) : 0 < Nat.pow 2 exponent :=
  Nat.two_pow_pos exponent

theorem round_mul (significand divisor : Nat) (positive : 0 < divisor) :
    roundHalfEven (significand * divisor) divisor = significand := by
  simp [roundHalfEven, Nat.mul_div_cancel _ positive, positive]

theorem round_between (numerator divisor : Nat) :
    numerator / divisor ≤ roundHalfEven numerator divisor ∧
      roundHalfEven numerator divisor ≤ numerator / divisor + 1 := by
  unfold roundHalfEven
  dsimp only
  split
  · omega
  · split <;> omega

/-- A significand of 53 bits, a carry into the next bit included, counts steps of `2 ^ scale`
units. -/
theorem units_scaled {scale significand : Nat} (normal : scale = 0 ∨ stride ≤ significand)
    (bound : significand ≤ 2 * stride) :
    units (scale * stride + significand) = significand * Nat.pow 2 scale := by
  have positive := stride_positive
  have quotient : (scale * stride + significand) / stride = scale + significand / stride := by
    rw [Nat.add_comm, Nat.add_mul_div_right _ _ positive, Nat.add_comm]
  have remainder : (scale * stride + significand) % stride = significand % stride := by
    rw [Nat.add_comm, Nat.add_mul_mod_self_right]
  unfold units
  rw [quotient, remainder]
  by_cases small : significand < stride
  · have bottom : scale = 0 := normal.resolve_right (by omega)
    subst bottom
    rw [if_pos (by omega)]
    simp
  have large : ¬scale * stride + significand < stride := by omega
  rw [if_neg large]
  by_cases carry : significand = 2 * stride
  · subst carry
    have next : scale + 2 - 1 = scale + 1 := by omega
    have double : Nat.pow 2 (scale + 1) = 2 * Nat.pow 2 scale := Nat.pow_succ'
    rw [Nat.mul_div_cancel _ positive, Nat.mul_mod_left, next, double, Nat.add_zero]
    ac_rfl
  · have one : significand / stride = 1 := by
      apply Nat.div_eq_of_lt_le <;> omega
    have rest : stride + significand % stride = significand := by
      have split := Nat.div_add_mod significand stride
      rw [one] at split
      omega
    rw [one, rest, Nat.add_sub_cancel]

/-- The scale that rounding chooses leaves at most 53 bits, and fewer only at the smallest scale. -/
theorem significand_bounds (size : Nat) :
    (size.log2 - 52 = 0 ∨ stride ≤ size / Nat.pow 2 (size.log2 - 52)) ∧
      size / Nat.pow 2 (size.log2 - 52) < 2 * stride := by
  have positive := power_positive (size.log2 - 52)
  constructor
  · by_cases bottom : size.log2 - 52 = 0
    · exact .inl bottom
    · apply Or.inr
      apply (Nat.le_div_iff_mul_le positive).mpr
      have sum : 52 + (size.log2 - 52) = size.log2 := by omega
      have joined : stride * Nat.pow 2 (size.log2 - 52) = 2 ^ size.log2 := by
        rw [← sum, Nat.pow_add]
        rw [sum]
        rfl
      have nonzero : size ≠ 0 := by
        rintro rfl
        exact bottom rfl
      rw [joined]
      exact Nat.log2_self_le nonzero
  · apply (Nat.div_lt_iff_lt_mul positive).mpr
    have joined : 2 * stride * Nat.pow 2 (size.log2 - 52) = 2 ^ (53 + (size.log2 - 52)) :=
      (Nat.pow_add 2 53 _).symm
    rw [joined]
    apply Nat.lt_of_lt_of_le Nat.lt_log2_self
    apply Nat.pow_le_pow_right (by decide)
    omega

theorem nearest_whole_cases (number : Nat) :
    nearest number 1 = infinity ∨ nearest number 1 < infinity ∧
      units (nearest number 1) =
        roundHalfEven (number * unitsPerOne) (Nat.pow 2 ((number * unitsPerOne).log2 - 52)) *
          Nat.pow 2 ((number * unitsPerOne).log2 - 52) := by
  obtain ⟨normal, bound⟩ := significand_bounds (number * unitsPerOne)
  have rounded :=
    round_between (number * unitsPerOne) (Nat.pow 2 ((number * unitsPerOne).log2 - 52))
  unfold nearest
  dsimp only
  rw [Nat.div_one, Nat.one_mul]
  by_cases finite : ((number * unitsPerOne).log2 - 52) * stride +
      roundHalfEven (number * unitsPerOne) (Nat.pow 2 ((number * unitsPerOne).log2 - 52)) < infinity
  · apply Or.inr
    rw [Nat.min_eq_left (by omega)]
    refine ⟨finite, units_scaled ?_ ?_⟩
    · rcases normal with bottom | large
      · exact .inl bottom
      · exact .inr (by omega)
    · omega
  · apply Or.inl
    exact Nat.min_eq_right (by omega)

/-- Rounding a whole number never leaves a fraction: with a step below one nothing is rounded. -/
theorem nearest_whole (number : Nat) :
    nearest number 1 = infinity ∨
      nearest number 1 < infinity ∧ unitsPerOne ∣ units (nearest number 1) := by
  rcases nearest_whole_cases number with top | ⟨finite, size⟩
  · exact .inl top
  · apply Or.inr
    refine ⟨finite, ?_⟩
    rw [size]
    generalize (number * unitsPerOne).log2 - 52 = scale
    obtain ⟨places, same⟩ : ∃ places, places = 1074 := ⟨_, rfl⟩
    rw [units_per_one_eq same]
    by_cases coarse : places ≤ scale
    · apply Nat.dvd_mul_left_of_dvd
      rw [power_split coarse]
      exact Nat.dvd_mul_left _ _
    · rw [power_split (Nat.le_of_not_le coarse), ← Nat.mul_assoc,
        round_mul _ _ (power_positive scale), Nat.mul_assoc]
      exact Nat.dvd_mul_left _ _

theorem units_of_stride_le {code : Nat} (normal : ¬code < stride) :
    ∃ scale significand, code = scale * stride + significand ∧ stride ≤ significand ∧
      significand < 2 * stride ∧ units code = significand * Nat.pow 2 scale := by
  have positive := stride_positive
  have split := Nat.div_add_mod code stride
  have rest := Nat.mod_lt code positive
  have quotient : 0 < code / stride := Nat.div_pos (Nat.le_of_not_lt normal) positive
  obtain ⟨scale, next⟩ : ∃ scale, code / stride = scale + 1 := ⟨code / stride - 1, by omega⟩
  rw [next, Nat.mul_add, Nat.mul_one, Nat.mul_comm] at split
  refine ⟨scale, stride + code % stride, by omega, by omega, by omega, ?_⟩
  rw [units, if_neg normal, next, Nat.add_sub_cancel]

theorem log_scaled {scale significand : Nat} (normal : stride ≤ significand)
    (bound : significand < 2 * stride) : (significand * Nat.pow 2 scale).log2 = 52 + scale := by
  have low : 2 ^ (52 + scale) ≤ significand * Nat.pow 2 scale := by
    rw [Nat.pow_add]
    exact Nat.mul_le_mul_right _ normal
  have high : significand * Nat.pow 2 scale < 2 ^ (53 + scale) := by
    rw [Nat.pow_add]
    exact Nat.mul_lt_mul_of_pos_right bound (power_positive scale)
  have nonzero : significand * Nat.pow 2 scale ≠ 0 := by
    have positive : 0 < 2 ^ (52 + scale) := power_positive _
    omega
  apply (Nat.log2_eq_iff nonzero).mpr
  rw [show 52 + scale + 1 = 53 + scale by omega]
  exact ⟨low, high⟩

theorem nearest_of_fraction {code numerator denominator : Nat} (finite : code < infinity)
    (positive : 0 < denominator) (size : units code * denominator = numerator * unitsPerOne) :
    nearest numerator denominator = code := by
  unfold nearest
  dsimp only
  rw [← size, Nat.mul_div_cancel _ positive]
  by_cases small : code < stride
  · have bottom : code.log2 - 52 = 0 := by
      by_cases zero : code = 0
      · subst zero
        rfl
      · have log : code.log2 < 52 := (Nat.log2_lt zero).mpr small
        omega
    have one : denominator * Nat.pow 2 0 = denominator := Nat.mul_one denominator
    rw [units, if_pos small, bottom, Nat.zero_mul, Nat.zero_add, one, round_mul _ _ positive]
    exact Nat.min_eq_left (by omega)
  · obtain ⟨scale, significand, rfl, normal, bound, sized⟩ := units_of_stride_le small
    have step : 0 < denominator * Nat.pow 2 scale := Nat.mul_pos positive (power_positive scale)
    have steps : significand * Nat.pow 2 scale * denominator =
        significand * (denominator * Nat.pow 2 scale) := by ac_rfl
    rw [sized, log_scaled normal bound, Nat.add_sub_cancel_left, steps, round_mul _ _ step]
    exact Nat.min_eq_left (by omega)

theorem nearest_of_units {code number : Nat} (finite : code < infinity)
    (size : units code = number * unitsPerOne) : nearest number 1 = code := by
  apply nearest_of_fraction finite Nat.one_pos
  rwa [Nat.mul_one]

theorem round_scale (numerator divisor : Nat) {factor : Nat} (positive : 0 < factor) :
    roundHalfEven (numerator * factor) (divisor * factor) = roundHalfEven numerator divisor := by
  have rest : 2 * (numerator * factor % (divisor * factor)) =
      2 * (numerator % divisor) * factor := by
    rw [Nat.mul_mod_mul_right, Nat.mul_assoc]
  unfold roundHalfEven
  dsimp only
  rw [rest, Nat.mul_div_mul_right _ _ positive]
  simp only [Nat.mul_lt_mul_right positive]

theorem nearest_scale (numerator denominator : Nat) {factor : Nat} (positive : 0 < factor) :
    nearest (numerator * factor) (denominator * factor) = nearest numerator denominator := by
  have scaled : numerator * factor * unitsPerOne = numerator * unitsPerOne * factor :=
    Nat.mul_right_comm _ _ _
  unfold nearest
  dsimp only
  rw [scaled, Nat.mul_div_mul_right _ _ positive, Nat.mul_right_comm denominator,
    round_scale _ _ positive]

theorem units_lt {code highest : Nat} (finite : code < infinity) (top : highest = 2045) :
    units code < 2 * stride * Nat.pow 2 highest := by
  have positive := stride_positive
  by_cases small : code < stride
  · have one := power_positive highest
    rw [units, if_pos small]
    apply Nat.lt_of_lt_of_le _ (Nat.le_mul_of_pos_right _ one)
    omega
  · obtain ⟨scale, significand, rfl, normal, bound, sized⟩ := units_of_stride_le small
    have below : scale ≤ highest := by
      have strides : (scale + 1) * stride < 2047 * stride := by
        rw [Nat.add_mul, Nat.one_mul]
        exact Nat.lt_of_le_of_lt (Nat.add_le_add_left normal _) finite
      have counts := Nat.lt_of_mul_lt_mul_right strides
      omega
    rw [sized]
    apply Nat.lt_of_lt_of_le (Nat.mul_lt_mul_of_pos_right bound (power_positive scale))
    exact Nat.mul_le_mul_left _ (Nat.pow_le_pow_right (by decide) below)

theorem units_lt_limit {code limit : Nat} (finite : code < infinity) (enough : limit = 310) :
    units code < 10 ^ limit * unitsPerOne := by
  obtain ⟨highest, top⟩ : ∃ highest, highest = 2045 := ⟨_, rfl⟩
  have bound : 2 * stride * Nat.pow 2 highest ≤ 10 ^ limit * unitsPerOne := by
    subst top enough
    decide +kernel
  exact Nat.lt_of_lt_of_le (units_lt finite top) bound

theorem number_lt_of_units {code number : Nat} (finite : code < infinity)
    (size : units code = number * unitsPerOne) : number < 10 ^ 310 := by
  have below := units_lt_limit finite rfl
  rw [size] at below
  exact Nat.lt_of_mul_lt_mul_right below

end Magnitude

namespace Decimal

theorem digit_count_le_iff {number places : Nat} (positive : 0 < places) :
    digitCount number ≤ places ↔ number < 10 ^ places :=
  Nat.length_toDigits_le_iff (by decide) positive

theorem code_whole (number : Nat) :
    code ⟨number, 0⟩ =
      if number = 0 then 0 else if 310 < digitCount number then Magnitude.infinity
      else Magnitude.nearest number 1 := by
  unfold code
  dsimp only
  by_cases zero : number = 0
  · rw [if_pos zero, if_pos zero]
  by_cases long : 310 < digitCount number
  · rw [if_neg zero, if_pos (by omega), if_neg zero, if_pos long]
  · rw [if_neg zero, if_neg (by omega), if_neg (by omega), if_pos (by decide), if_neg zero,
      if_neg long]
    congr 1
    exact Nat.mul_one number

theorem code_whole_cases (number : Nat) :
    code ⟨number, 0⟩ = Magnitude.infinity ∨ code ⟨number, 0⟩ < Magnitude.infinity ∧
      Magnitude.unitsPerOne ∣ Magnitude.units (code ⟨number, 0⟩) := by
  rw [code_whole]
  split
  · apply Or.inr
    exact ⟨by decide, Nat.dvd_zero _⟩
  · split
    · exact .inl rfl
    · exact Magnitude.nearest_whole number

theorem code_of_units {code number : Nat} (finite : code < Magnitude.infinity)
    (size : Magnitude.units code = number * Magnitude.unitsPerOne) :
    Decimal.code ⟨number, 0⟩ = code := by
  have exact := Magnitude.nearest_of_units finite size
  have short : digitCount number ≤ 310 :=
    (digit_count_le_iff (by decide)).mpr (Magnitude.number_lt_of_units finite size)
  rw [code_whole]
  by_cases zero : number = 0
  · subst zero
    rw [if_pos rfl, ← exact]
    decide +kernel
  · rw [if_neg zero, if_neg (by omega), exact]

theorem to_digits_shift {number : Nat} (positive : 0 < number) (places : Nat) :
    Nat.toDigits 10 (number * 10 ^ places) =
      Nat.toDigits 10 number ++ List.replicate places '0' := by
  induction places with
  | zero => simp
  | succ places induction =>
    have shifted : 0 < number * 10 ^ places := Nat.mul_pos positive (Nat.pow_pos (by decide))
    have appended : Nat.toDigits 10 (number * 10 ^ places) ++ Nat.toDigits 10 0 =
        Nat.toDigits 10 (10 * (number * 10 ^ places) + 0) :=
      Nat.toDigits_append_toDigits (by decide) shifted (by decide)
    have product : number * 10 ^ (places + 1) = 10 * (number * 10 ^ places) + 0 := by
      rw [Nat.pow_succ]
      ac_rfl
    rw [product, ← appended, induction, List.append_assoc, List.replicate_succ']
    rfl

theorem digit_count_shift {number : Nat} (positive : 0 < number) (places : Nat) :
    digitCount (number * 10 ^ places) = digitCount number + places := by
  rw [digitCount, to_digits_shift positive, List.length_append, List.length_replicate]
  rfl

theorem code_shift (digits places : Nat) (exponent : Int) :
    code ⟨digits * 10 ^ places, exponent⟩ = code ⟨digits, exponent + places⟩ := by
  by_cases zero : digits = 0
  · subst zero
    simp [code]
  have positive : 0 < digits := by omega
  have power : 0 < 10 ^ places := Nat.pow_pos (by decide)
  have nonzero : digits * 10 ^ places ≠ 0 := Nat.ne_of_gt (Nat.mul_pos positive power)
  unfold code
  dsimp only
  rw [digit_count_shift positive, if_neg zero, if_neg nonzero]
  have top : ((digitCount digits + places : Nat) : Int) + exponent =
      digitCount digits + (exponent + places) := by omega
  rw [top]
  congr 2
  by_cases whole : 0 ≤ exponent
  · have sum : (exponent + places).toNat = places + exponent.toNat := by omega
    rw [if_pos whole, if_pos (by omega), sum]
    congr 1
    exact (Nat.mul_assoc _ _ _).trans (congrArg (digits * ·) (Nat.pow_add 10 _ _).symm)
  rw [if_neg whole]
  by_cases crossed : 0 ≤ exponent + places
  · have sum : places = (exponent + places).toNat + (-exponent).toNat := by omega
    have split : digits * 10 ^ places =
        digits * 10 ^ (exponent + places).toNat * 10 ^ (-exponent).toNat := by
      rw [Nat.mul_assoc, ← Nat.pow_add, ← sum]
    rw [if_pos crossed, split]
    have scale := Magnitude.nearest_scale (digits * 10 ^ (exponent + places).toNat) 1
      (show 0 < 10 ^ (-exponent).toNat from Nat.pow_pos (by decide))
    rwa [Nat.one_mul] at scale
  · have sum : (-exponent).toNat = (-(exponent + places)).toNat + places := by omega
    rw [if_neg crossed, sum]
    exact (congrArg _ (Nat.pow_add 10 _ _)).trans (Magnitude.nearest_scale _ _ power)

theorem positional_shift {digits : Nat} (positive : 0 < digits) (places : Nat) :
    positional ⟨digits, places⟩ = Nat.toDigits 10 (digits * 10 ^ places) := by
  unfold positional
  dsimp only
  rw [if_pos (by omega), to_digits_shift positive, Int.toNat_natCast]

theorem on_grid_reads {tie : Tie} {code : Nat} {exponent : Int} {decimal : Decimal}
    (found : onGrid tie code exponent = some decimal) :
    decimal.code = code ∧ decimal.exponent = exponent := by
  unfold onGrid at found
  grind

theorem refine_reads {tie : Tie} {code : Nat} (whole : onGrid tie code 0 ≠ none)
    (steps exponent : Nat) (enough : exponent < steps) :
    (refine tie code steps exponent).code = code ∧
      0 ≤ (refine tie code steps exponent).exponent := by
  induction exponent generalizing steps with
  | zero =>
    obtain ⟨rest, rfl⟩ : ∃ rest, steps = rest + 1 := ⟨steps - 1, by omega⟩
    obtain ⟨decimal, found⟩ := Option.ne_none_iff_exists'.mp whole
    have reads := on_grid_reads found
    have refined : refine tie code (rest + 1) (0 : Nat) = decimal := by
      rw [refine]
      simp [found]
    rw [refined]
    exact ⟨reads.1, by omega⟩
  | succ exponent induction =>
    obtain ⟨rest, rfl⟩ : ∃ rest, steps = rest + 1 := ⟨steps - 1, by omega⟩
    rw [refine]
    cases found : onGrid tie code ((exponent + 1 : Nat) : Int) with
    | some decimal =>
      have reads := on_grid_reads found
      exact ⟨reads.1, by dsimp only; omega⟩
    | none =>
      have next : ((exponent + 1 : Nat) : Int) - 1 = (exponent : Nat) := by omega
      rw [next]
      exact induction rest (by omega)

theorem ratio_zero (code : Nat) : ratio code 0 = (Magnitude.units code, Magnitude.unitsPerOne) := by
  unfold ratio
  generalize Magnitude.unitsPerOne = whole
  simp

theorem on_grid_whole {code number : Nat} (tie : Tie) (finite : code < Magnitude.infinity)
    (size : Magnitude.units code = number * Magnitude.unitsPerOne) : onGrid tie code 0 ≠ none := by
  have positive : 0 < Magnitude.unitsPerOne := by decide +kernel
  have low : (ratio code 0).1 / (ratio code 0).2 = number := by
    rw [ratio_zero, size, Nat.mul_div_cancel number positive]
  have reads := code_of_units finite size
  unfold onGrid
  dsimp only
  rw [low, if_pos reads]
  split
  · split
    · simp
    · split
      · simp
      · cases tie with
        | up => simp
        | even =>
          dsimp only
          split <;> simp
  · simp

/-- The shortest decimal of a whole number is written with digits only, and they read as that
number. -/
theorem positional_shortest {code number : Nat} (tie : Tie) (finite : code < Magnitude.infinity)
    (size : Magnitude.units code = number * Magnitude.unitsPerOne) :
    ∃ shown, positional (shortest tie code) = Nat.toDigits 10 shown ∧
      Decimal.code ⟨shown, 0⟩ = code := by
  by_cases zero : code = 0
  · subst zero
    refine ⟨0, ?_, code_whole 0⟩
    rw [shortest, if_pos rfl]
    rfl
  have nonzero : number ≠ 0 := by
    rintro rfl
    apply zero
    rw [← code_of_units finite size, code_whole, if_pos rfl]
  have large : Magnitude.unitsPerOne ≤ Magnitude.units code := by
    rw [size]
    exact Nat.le_mul_of_pos_left _ (by omega)
  obtain ⟨start, top⟩ : ∃ start : Nat, ceiling code = start := by
    unfold ceiling
    dsimp only
    rw [if_pos large]
    exact ⟨_, rfl⟩
  have reads := refine_reads (on_grid_whole tie finite size) (start + 1074) start (by omega)
  have chosen : shortest tie code = refine tie code (start + 1074) start := by
    rw [shortest, if_neg zero, top]
    rfl
  rw [← chosen] at reads
  generalize shortest tie code = decimal at reads ⊢
  obtain ⟨digits, exponent⟩ := decimal
  obtain ⟨places, rfl⟩ := Int.eq_ofNat_of_zero_le reads.2
  have positive : 0 < digits := by
    apply Nat.pos_of_ne_zero
    rintro rfl
    rw [Decimal.code, if_pos rfl] at reads
    exact zero reads.1.symm
  refine ⟨digits * 10 ^ places, positional_shift positive places, ?_⟩
  rw [code_shift, Int.zero_add]
  exact reads.1

end Decimal

/-- The sign bit is clear, and the value is infinite or a whole number. -/
def IsWhole (value : Float) : Prop :=
  isNegative value = false ∧
    (magnitude value = Magnitude.infinity ∨
      magnitude value < Magnitude.infinity ∧
        Magnitude.unitsPerOne ∣ Magnitude.units (magnitude value))

theorem IsWhole.bound {value : Float} (whole : IsWhole value) :
    magnitude value ≤ Magnitude.infinity := by
  rcases whole.2 with top | finite <;> omega

theorem numeral_value_whole (digits : List Char) : IsWhole (numeralValue digits) := by
  have cases := Decimal.code_whole_cases (digitsValue digits)
  have bound : Decimal.code ⟨digitsValue digits, 0⟩ ≤ Magnitude.infinity := by
    rcases cases with top | finite <;> omega
  refine ⟨is_negative_of_magnitude false bound, ?_⟩
  have size : magnitude (numeralValue digits) = Decimal.code ⟨digitsValue digits, 0⟩ :=
    magnitude_of_magnitude false bound
  rwa [size]

theorem numeral_value_digits {value : Float} {number : Nat} (whole : IsWhole value)
    (reads : Decimal.code ⟨number, 0⟩ = magnitude value) :
    numeralValue (Nat.toDigits 10 number) = value := by
  have digits : digitsValue (Nat.toDigits 10 number) = number := Nat.ofDigitChars_ten_toDigits
  rw [numeralValue, digits, Decimal.toFloat, reads, ← whole.1]
  exact (eq_of_magnitude whole.bound).symm

theorem exists_numeral {value : Float} (whole : IsWhole value) :
    ∃ number, numeralValue (Nat.toDigits 10 number) = value := by
  rcases whole.2 with top | ⟨finite, number, size⟩
  · obtain ⟨places, many⟩ : ∃ places, places = 310 := ⟨_, rfl⟩
    refine ⟨10 ^ places, numeral_value_digits whole ?_⟩
    have nonzero : 10 ^ places ≠ 0 := Nat.ne_of_gt (Nat.pow_pos (by decide))
    have long : ¬Decimal.digitCount (10 ^ places) ≤ places := by
      rw [Decimal.digit_count_le_iff (by omega)]
      exact Nat.lt_irrefl _
    rw [Decimal.code_whole, if_neg nonzero, if_pos (by omega), top]
  · refine ⟨number, numeral_value_digits whole ?_⟩
    rw [Nat.mul_comm] at size
    exact Decimal.code_of_units finite size

theorem show_number_whole {value : Float} (whole : IsWhole value)
    (finite : magnitude value ≠ Magnitude.infinity) :
    ∃ number, showNumber value = String.ofList (Nat.toDigits 10 number) ∧
      numeralValue (Nat.toDigits 10 number) = value := by
  obtain ⟨below, number, size⟩ := whole.2.resolve_left finite
  rw [Nat.mul_comm] at size
  obtain ⟨shown, text, reads⟩ := Decimal.positional_shortest .up below size
  refine ⟨shown, ?_, numeral_value_digits whole reads⟩
  rw [showNumber, NumberStyle.write]
  dsimp only
  rw [if_neg (by omega), if_neg finite, whole.1, Bool.false_and, if_neg Bool.false_ne_true]
  exact congrArg String.ofList text

theorem digit_of_mem_to_digits {number : Nat} {char : Char}
    (member : char ∈ Nat.toDigits 10 number) :
    isDigit char = true :=
  Nat.isDigit_of_mem_toDigits (by decide) (by decide) member

theorem written_number (number : Nat) :
    (Word.numeral (String.ofList (Nat.toDigits 10 number))).Written := by
  apply written_digits Nat.toDigits_ne_nil
  intro char member
  exact digit_of_mem_to_digits member

end WhileLang
