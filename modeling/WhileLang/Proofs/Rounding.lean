import WhileLang.Proofs.ExactValue

/-!
# Rounding

A number rounds to the code of the finite double nearest to it, of two equally near ones to the even
code, and from `limit` on to infinity (`Magnitude.Rounds`). This determines the code, and a larger
number never rounds to a smaller code, so the numbers that round to one code are all that lie
between two of them.

Reading a decimal rounds it (`Decimal.code_rounds`). The code that is computed is the one at or just
above the number, since the codes next to it are those of the two sizes around it.
-/

namespace WhileLang

set_option autoImplicit false

theorem nearer_above_iff {low high number : ℚ} (ordered : low < high) :
    |high - number| ≤ |low - number| ↔ low + high ≤ 2 * number := by
  rcases abs_cases (high - number) with ⟨first, _⟩ | ⟨first, _⟩ <;>
    rcases abs_cases (low - number) with ⟨second, _⟩ | ⟨second, _⟩ <;>
      rw [first, second] <;> constructor <;> intro _ <;> linarith

theorem nearer_below_iff {low high number : ℚ} (ordered : low < high) :
    |low - number| ≤ |high - number| ↔ 2 * number ≤ low + high := by
  rcases abs_cases (high - number) with ⟨first, _⟩ | ⟨first, _⟩ <;>
    rcases abs_cases (low - number) with ⟨second, _⟩ | ⟨second, _⟩ <;>
      rw [first, second] <;> constructor <;> intro _ <;> linarith

namespace Magnitude

/-- From here on a number rounds to infinity: half a step above the largest double. -/
def limit : ℚ :=
  2 ^ 1024 - 2 ^ 970

/-- The code is that of the finite double nearest to the number, and even if another one is as
near. -/
structure IsNearest (number : ℚ) (code : Nat) : Prop where
  finite : code < infinity
  nearest : ∀ other, other < infinity → |size code - number| ≤ |size other - number|
  even : ∀ other, other < infinity → other ≠ code → |size code - number| = |size other - number| →
    code % 2 = 0

inductive Rounds (number : ℚ) (code : Nat) : Prop where
  | overflow (large : limit ≤ number) (top : code = infinity)
  | finite (small : number < limit) (nearest : IsNearest number code)

/-- Two neighbours are two significands in a row, counted in the same step. -/
theorem units_step (code : Nat) :
    ∃ scale significand, units code = significand * Nat.pow 2 scale ∧
      units (code + 1) = (significand + 1) * Nat.pow 2 scale ∧
      (scale = 0 ∧ significand = code ∨ stride ≤ significand) := by
  by_cases small : code < stride
  · have here : units (0 * stride + code) = code * Nat.pow 2 0 := units_scaled (.inl rfl) (by omega)
    have next : units (0 * stride + (code + 1)) = (code + 1) * Nat.pow 2 0 :=
      units_scaled (.inl rfl) (by omega)
    rw [Nat.zero_mul, Nat.zero_add] at here next
    exact ⟨0, code, here, next, .inl ⟨rfl, rfl⟩⟩
  · obtain ⟨scale, significand, rfl, normal, bound, sized⟩ := units_of_stride_le small
    have next : units (scale * stride + (significand + 1)) = (significand + 1) * Nat.pow 2 scale :=
      units_scaled (.inr (by omega)) (by omega)
    rw [← Nat.add_assoc] at next
    exact ⟨scale, significand, sized, next, .inr normal⟩

theorem units_strict_mono : StrictMono units := by
  apply strictMono_nat_of_lt_succ
  intro code
  obtain ⟨scale, significand, here, next, _⟩ := units_step code
  rw [here, next]
  exact Nat.mul_lt_mul_of_pos_right (Nat.lt_succ_self significand) (power_positive scale)

theorem size_strict_mono : StrictMono size := by
  intro code other less
  apply div_lt_div_of_pos_right _ units_per_one_positive
  exact_mod_cast units_strict_mono less

theorem size_scaled {scale significand : Nat} (normal : scale = 0 ∨ stride ≤ significand)
    (bound : significand ≤ 2 * stride) :
    size (scale * stride + significand) = significand * 2 ^ ((scale : Int) - 1074) := by
  rw [size, units_scaled normal bound, scaled_units]

theorem limit_eq : 2 * limit = size (infinity - 1) + size infinity := by
  have top : infinity = 2046 * stride + stride := by decide
  have last : infinity - 1 = 2045 * stride + (2 * stride - 1) := by decide
  have scale : ((2046 : Nat) : Int) - 1074 = ((970 : Nat) : Int) + 2 := by norm_num
  have lastScale : ((2045 : Nat) : Int) - 1074 = ((970 : Nat) : Int) + 1 := by norm_num
  have whole : (2 : ℚ) ^ 1024 = 2 ^ 970 * 2 ^ 54 := (pow_add 2 970 54)
  have width : ((stride : Nat) : ℚ) = 2 ^ 52 := by
    norm_num [stride]
  have lastWidth : ((2 * stride - 1 : Nat) : ℚ) = 2 ^ 53 - 1 := by
    norm_num [stride]
  rw [last, top, size_scaled (.inr (by decide)) (by decide),
    size_scaled (.inr (by decide)) (by decide), scale, lastScale, width, lastWidth, limit, whole,
    zpow_add₀ two_ne_zero, zpow_add₀ two_ne_zero, zpow_natCast]
  generalize (2 : ℚ) ^ 970 = power
  norm_num
  ring

variable {number other : ℚ} {code low : Nat}

theorem nearest_below (below : size low ≤ number) (near : 2 * number ≤ size low + size (low + 1))
    (even : 2 * number = size low + size (low + 1) → low % 2 = 0) (code : Nat) :
    |size low - number| ≤ |size code - number| ∧
      (code ≠ low → |size low - number| = |size code - number| → low % 2 = 0) := by
  rcases Nat.lt_trichotomy code low with less | rfl | more
  · have smaller := size_strict_mono less
    have nearer : |size low - number| ≤ |size code - number| :=
      (nearer_above_iff smaller).mpr (by linarith)
    refine ⟨nearer, fun _ same => ?_⟩
    have middle := (nearer_below_iff smaller).mp same.symm.le
    exact absurd middle (by linarith)
  · exact ⟨le_refl _, fun differs => absurd rfl differs⟩
  · have larger := size_strict_mono more
    have next : size (low + 1) ≤ size code := size_strict_mono.monotone more
    refine ⟨(nearer_below_iff larger).mpr (by linarith), fun _ same => ?_⟩
    have middle := (nearer_above_iff larger).mp same.symm.le
    exact even (by linarith)

theorem nearest_above (above : number < size (low + 1))
    (near : size low + size (low + 1) ≤ 2 * number)
    (even : 2 * number = size low + size (low + 1) → (low + 1) % 2 = 0) (code : Nat) :
    |size (low + 1) - number| ≤ |size code - number| ∧
      (code ≠ low + 1 → |size (low + 1) - number| = |size code - number| → (low + 1) % 2 = 0) := by
  rcases Nat.lt_trichotomy code (low + 1) with less | rfl | more
  · have smaller := size_strict_mono less
    have last : size code ≤ size low := size_strict_mono.monotone (Nat.le_of_lt_succ less)
    refine ⟨(nearer_above_iff smaller).mpr (by linarith), fun _ same => ?_⟩
    have middle := (nearer_below_iff smaller).mp same.symm.le
    exact even (by linarith)
  · exact ⟨le_refl _, fun differs => absurd rfl differs⟩
  · have larger := size_strict_mono more
    refine ⟨(nearer_below_iff larger).mpr (by linarith), fun _ same => ?_⟩
    have middle := (nearer_above_iff larger).mp same.symm.le
    exact absurd middle (by linarith)

theorem Rounds.le_infinity (rounds : Rounds number code) : code ≤ infinity := by
  cases rounds with
  | overflow large top => omega
  | finite small nearest => exact Nat.le_of_lt nearest.finite

theorem Rounds.mono {last : Nat} (first : Rounds number code) (second : Rounds other last)
    (ordered : number ≤ other) : code ≤ last := by
  cases second with
  | overflow large top =>
    rw [top]
    exact first.le_infinity
  | finite small second =>
    cases first with
    | overflow large top => exact absurd small (by linarith)
    | finite less first =>
      by_contra reversed
      have sizes := size_strict_mono (Nat.lt_of_not_le reversed)
      have above := (nearer_above_iff sizes).mp (first.nearest last second.finite)
      have below := (nearer_below_iff sizes).mp (second.nearest code first.finite)
      -- Both numbers are in the middle, so both codes are even, and there is a code between them.
      have same : number = other := by linarith
      subst same
      have tie : |size code - number| = |size last - number| :=
        le_antisymm ((nearer_above_iff sizes).mpr above) ((nearer_below_iff sizes).mpr below)
      have evenCode := first.even last second.finite (by omega) tie
      have evenLast := second.even code first.finite (by omega) tie.symm
      have between := size_strict_mono (show last + 1 < code by omega)
      have nearer := (nearer_below_iff (size_strict_mono (Nat.lt_succ_self last))).mp
        (second.nearest (last + 1) (by have := first.finite; omega))
      change 2 * number ≤ size last + size (last + 1) at nearer
      linarith

theorem Rounds.unique {last : Nat} (first : Rounds number code) (second : Rounds number last) :
    code = last :=
  Nat.le_antisymm (first.mono second le_rfl) (second.mono first le_rfl)

theorem half_even (numerator divisor : Nat) :
    (roundHalfEven numerator divisor = numerator / divisor ∧ 2 * (numerator % divisor) ≤ divisor ∧
      (2 * (numerator % divisor) = divisor → numerator / divisor % 2 = 0)) ∨
    (roundHalfEven numerator divisor = numerator / divisor + 1 ∧
      divisor ≤ 2 * (numerator % divisor) ∧
      (2 * (numerator % divisor) = divisor → (numerator / divisor + 1) % 2 = 0)) := by
  unfold roundHalfEven
  dsimp only
  split
  · omega
  · split <;> omega

theorem size_mul {scale significand : Nat} (normal : scale = 0 ∨ stride ≤ significand)
    (bound : significand ≤ 2 * stride) (denominator : Nat) :
    size (scale * stride + significand) * (denominator * unitsPerOne) =
      significand * (denominator * Nat.pow 2 scale : Nat) := by
  have one := units_per_one_positive.ne'
  rw [size, units_scaled normal bound, Nat.cast_mul, Nat.cast_mul]
  field_simp

/-- The number lies between two neighbours, and the code is that of the nearer one. -/
structure Bracketed (number : ℚ) (low code : Nat) : Prop where
  below : size low ≤ number
  above : number < size (low + 1)
  chosen : (code = low ∧ 2 * number ≤ size low + size (low + 1) ∧
      (2 * number = size low + size (low + 1) → low % 2 = 0)) ∨
    (code = low + 1 ∧ size low + size (low + 1) ≤ 2 * number ∧
      (2 * number = size low + size (low + 1) → (low + 1) % 2 = 0))

/-- A number in `weight`s that is `quotient` steps and a `remainder`, between codes that are as many
steps and one more. -/
theorem Bracketed.of_division {weight : ℚ} {step quotient remainder choice : Nat}
    (positive : 0 < weight) (lower : size low * weight = quotient * step)
    (upper : size (low + 1) * weight = (quotient + 1 : Nat) * step)
    (exact : number * weight = (step * quotient + remainder : Nat)) (rest : remainder < step)
    (parity : low % 2 = quotient % 2)
    (rounded : (choice = quotient ∧ 2 * remainder ≤ step ∧
      (2 * remainder = step → quotient % 2 = 0)) ∨
      (choice = quotient + 1 ∧ step ≤ 2 * remainder ∧
        (2 * remainder = step → (quotient + 1) % 2 = 0))) :
    Bracketed number low (low + choice - quotient) := by
  push_cast at exact upper
  have remainderBound : (remainder : ℚ) < step := by exact_mod_cast rest
  have nonnegative : (0 : ℚ) ≤ remainder := by positivity
  -- Twice the number is apart from the sum of the two sizes by what twice the remainder is apart
  -- from a step.
  have middle : (size low + size (low + 1) - 2 * number) * weight = step - 2 * remainder := by
    linear_combination lower + upper - 2 * exact
  have tie : 2 * number = size low + size (low + 1) → 2 * remainder = step := by
    intro same
    have zero : (step : ℚ) - 2 * remainder = 0 := by
      rw [← middle, same, sub_self, zero_mul]
    exact_mod_cast (sub_eq_zero.mp zero).symm
  refine ⟨?_, ?_, ?_⟩
  · apply le_of_mul_le_mul_right _ positive
    linarith
  · apply lt_of_mul_lt_mul_right _ positive.le
    linarith
  · rcases rounded with ⟨rfl, small, even⟩ | ⟨rfl, large, even⟩
    · refine .inl ⟨by omega, ?_, fun same => ?_⟩
      · have smaller : (2 : ℚ) * remainder ≤ step := by exact_mod_cast small
        have gap : 0 ≤ (size low + size (low + 1) - 2 * number) * weight := by linarith
        linarith [nonneg_of_mul_nonneg_left gap positive]
      · rw [parity]
        exact even (tie same)
    · refine .inr ⟨by omega, ?_, fun same => ?_⟩
      · have larger : (step : ℚ) ≤ 2 * remainder := by exact_mod_cast large
        have gap : 0 ≤ (2 * number - (size low + size (low + 1))) * weight := by linarith
        linarith [nonneg_of_mul_nonneg_left gap positive]
      · have parityNext := even (tie same)
        omega

theorem nearest_bracketed (numerator : Nat) {denominator : Nat} (positive : 0 < denominator) :
    ∃ low code, nearest numerator denominator = min code infinity ∧
      Bracketed (numerator / denominator) low code := by
  obtain ⟨normal, bound⟩ := significand_bounds (numerator * unitsPerOne / denominator)
  have even : stride % 2 = 0 := by decide
  unfold nearest
  dsimp only
  generalize (numerator * unitsPerOne / denominator).log2 - 52 = scale at normal bound ⊢
  rw [Nat.div_div_eq_div_mul] at normal bound
  have exact : (numerator : ℚ) / denominator * (denominator * unitsPerOne) =
      (numerator * unitsPerOne : Nat) := by
    have proper : (denominator : ℚ) ≠ 0 := by exact_mod_cast positive.ne'
    rw [← mul_assoc, div_mul_cancel₀ _ proper, Nat.cast_mul]
  have weight : (0 : ℚ) < denominator * unitsPerOne :=
    mul_pos (by exact_mod_cast positive) units_per_one_positive
  have step : 0 < denominator * Nat.pow 2 scale := Nat.mul_pos positive (power_positive scale)
  rw [← Nat.div_add_mod (numerator * unitsPerOne) (denominator * Nat.pow 2 scale)] at exact
  have lower := size_mul normal bound.le denominator
  have upper := size_mul (normal.imp_right fun large => Nat.le_succ_of_le large) bound denominator
  rw [Nat.succ_eq_add_one, ← Nat.add_assoc] at upper
  have parity : ∀ quotient, (scale * stride + quotient) % 2 = quotient % 2 := by
    intro quotient
    rw [Nat.add_mod, Nat.mul_mod, even, Nat.mul_zero, Nat.zero_mod, Nat.zero_add, Nat.mod_mod]
  have bracketed :=
    Bracketed.of_division weight lower upper exact (Nat.mod_lt _ step) (parity _) (half_even _ _)
  refine ⟨_, _, ?_, bracketed⟩
  congr 1
  omega

theorem Bracketed.lt_limit (bracketed : Bracketed number low code) (finite : code < infinity) :
    number < limit := by
  have last : infinity - 1 + 1 = infinity := by decide
  have odd : (infinity - 1) % 2 = 1 := by decide
  have highest : size (infinity - 1) < size infinity := size_strict_mono (by omega)
  have middle := limit_eq
  by_cases inside : low + 1 < infinity
  · have next : size (low + 1) ≤ size (infinity - 1) := size_strict_mono.monotone (by omega)
    linarith [bracketed.above]
  -- The number is next to the largest double, whose code is odd, so it is not in the middle.
  rcases bracketed.chosen with ⟨here, near, even⟩ | ⟨here, _⟩
  · obtain rfl : low = infinity - 1 := by omega
    rw [last] at near even
    apply lt_of_le_of_ne (by linarith)
    intro tie
    have contrary := even (by linarith)
    omega
  · omega

theorem Bracketed.limit_le (bracketed : Bracketed number low code) (infinite : infinity ≤ code) :
    limit ≤ number := by
  have highest : size (infinity - 1) < size infinity := size_strict_mono (by decide)
  have middle := limit_eq
  rcases bracketed.chosen with ⟨here, _⟩ | ⟨here, near, _⟩
  · have top : size infinity ≤ size low := size_strict_mono.monotone (by omega)
    linarith [bracketed.below]
  · have lower : size (infinity - 1) ≤ size low := size_strict_mono.monotone (by omega)
    have upper : size infinity ≤ size (low + 1) := size_strict_mono.monotone (by omega)
    linarith

theorem Bracketed.nearest (bracketed : Bracketed number low code) (other : Nat) :
    |size code - number| ≤ |size other - number| ∧
      (other ≠ code → |size code - number| = |size other - number| → code % 2 = 0) := by
  rcases bracketed.chosen with ⟨rfl, near, even⟩ | ⟨rfl, near, even⟩
  · exact nearest_below bracketed.below near even other
  · exact nearest_above bracketed.above near even other

theorem Bracketed.rounds (bracketed : Bracketed number low code) :
    Rounds number (min code infinity) := by
  by_cases finite : code < infinity
  · rw [Nat.min_eq_left finite.le]
    exact .finite (bracketed.lt_limit finite)
      ⟨finite, fun other _ => (bracketed.nearest other).1,
        fun other _ => (bracketed.nearest other).2⟩
  · have infinite := Nat.le_of_not_lt finite
    rw [Nat.min_eq_right infinite]
    exact .overflow (bracketed.limit_le infinite) rfl

/-- The computed code of a fraction is the one that it rounds to. -/
theorem nearest_rounds (numerator : Nat) {denominator : Nat} (positive : 0 < denominator) :
    Rounds (numerator / denominator) (nearest numerator denominator) := by
  obtain ⟨low, code, same, bracketed⟩ := nearest_bracketed numerator positive
  rw [same]
  exact bracketed.rounds

theorem limit_le : limit ≤ 10 ^ 310 := by
  have power : (2 : ℚ) ^ 1024 ≤ 10 ^ 310 := by
    have whole : 2 ^ 1024 ≤ 10 ^ 310 := by decide +kernel
    exact_mod_cast whole
  have positive : (0 : ℚ) ≤ 2 ^ 970 := by positivity
  exact (sub_le_self _ positive).trans power

theorem size_one : size 1 = 1 / unitsPerOne := by
  have single : units 1 = 1 := if_pos (by decide)
  rw [size, single, Nat.cast_one]

theorem le_size_one : 2 * (10 : ℚ) ^ (-331 : Int) ≤ size 1 := by
  have whole : 2 * unitsPerOne ≤ 10 ^ 331 := by decide +kernel
  have scaled : (2 : ℚ) * unitsPerOne ≤ 10 ^ 331 := by exact_mod_cast whole
  have power : (10 : ℚ) ^ (-331 : Int) = 1 / 10 ^ 331 := by
    rw [zpow_neg, one_div]
    rfl
  rw [size_one, power, mul_one_div]
  apply (div_le_div_iff₀ (by positivity) units_per_one_positive).mpr
  rwa [one_mul]

theorem rounds_zero (nonnegative : 0 ≤ number) (tiny : 2 * number ≤ size 1) : Rounds number 0 := by
  have zero := size_zero
  have bracketed : Bracketed number 0 0 := by
    refine ⟨by linarith, ?_, .inl ⟨rfl, by linarith, fun _ => rfl⟩⟩
    have positive : size 0 < size 1 := size_strict_mono Nat.zero_lt_one
    change number < size 1
    linarith
  exact bracketed.rounds

end Magnitude

namespace Decimal

def value (decimal : Decimal) : ℚ :=
  decimal.digits * 10 ^ decimal.exponent

theorem value_nonneg (decimal : Decimal) : 0 ≤ decimal.value := by
  unfold value
  positivity

theorem digit_count_bounds {number : Nat} (positive : 0 < number) :
    10 ^ (digitCount number - 1) ≤ number ∧ number < 10 ^ digitCount number ∧
      0 < digitCount number := by
  have count : 0 < digitCount number := List.length_pos_iff.mpr Nat.toDigits_ne_nil
  refine ⟨?_, (digit_count_le_iff count).mp (Nat.le_refl _), count⟩
  by_cases single : digitCount number = 1
  · rw [single]
    exact positive
  · by_contra less
    have shorter :=
      (digit_count_le_iff (show 0 < digitCount number - 1 by omega)).mpr (Nat.lt_of_not_le less)
    omega

theorem value_bounds {decimal : Decimal} (positive : 0 < decimal.digits) :
    (10 : ℚ) ^ (digitCount decimal.digits + decimal.exponent - 1) ≤ decimal.value ∧
      decimal.value < (10 : ℚ) ^ (digitCount decimal.digits + decimal.exponent) := by
  obtain ⟨lower, upper, count⟩ := digit_count_bounds positive
  have power : (0 : ℚ) < 10 ^ decimal.exponent := by positivity
  have first : ((10 : ℚ) ^ (digitCount decimal.digits - 1 : Nat)) ≤ decimal.digits := by
    exact_mod_cast lower
  have second : (decimal.digits : ℚ) < (10 : ℚ) ^ digitCount decimal.digits := by
    exact_mod_cast upper
  have split : (digitCount decimal.digits : Int) + decimal.exponent - 1 =
      ((digitCount decimal.digits - 1 : Nat) : Int) + decimal.exponent := by omega
  rw [split, zpow_add₀ (by norm_num), zpow_add₀ (by norm_num), zpow_natCast, zpow_natCast]
  exact ⟨mul_le_mul_of_nonneg_right first power.le, mul_lt_mul_of_pos_right second power⟩

theorem value_whole {digits : Nat} {exponent : Int} (whole : 0 ≤ exponent) :
    value ⟨digits, exponent⟩ = ((digits * Nat.pow 10 exponent.toNat : Nat) : ℚ) / (1 : Nat) := by
  have power : ((Nat.pow 10 exponent.toNat : Nat) : ℚ) = 10 ^ exponent.toNat := Nat.cast_pow 10 _
  rw [value, Nat.cast_mul, power, Nat.cast_one, div_one, ← zpow_natCast, Int.toNat_of_nonneg whole]

theorem value_fraction {digits : Nat} {exponent : Int} (fractional : exponent < 0) :
    value ⟨digits, exponent⟩ = (digits : ℚ) / (Nat.pow 10 (-exponent).toNat : Nat) := by
  have power : ((Nat.pow 10 (-exponent).toNat : Nat) : ℚ) = 10 ^ (-exponent).toNat :=
    Nat.cast_pow 10 _
  rw [value, power, ← zpow_natCast, Int.toNat_of_nonneg (by omega), zpow_neg, div_inv_eq_mul]

theorem code_rounds (decimal : Decimal) : Magnitude.Rounds decimal.value decimal.code := by
  obtain ⟨digits, exponent⟩ := decimal
  unfold code
  dsimp only
  by_cases zero : digits = 0
  · subst zero
    have nothing : value ⟨0, exponent⟩ = 0 := by simp [value]
    rw [if_pos rfl, nothing]
    apply Magnitude.rounds_zero le_rfl
    have positive : Magnitude.size 0 < Magnitude.size 1 :=
      Magnitude.size_strict_mono Nat.zero_lt_one
    rw [Magnitude.size_zero] at positive
    linarith
  obtain ⟨lower, upper⟩ :=
    value_bounds (show 0 < (Decimal.mk digits exponent).digits from Nat.pos_of_ne_zero zero)
  dsimp only at lower upper
  rw [if_neg zero]
  by_cases huge : 310 < (digitCount digits : Int) + exponent
  · rw [if_pos huge]
    refine .overflow ?_ rfl
    apply Magnitude.limit_le.trans
    refine le_trans ?_ lower
    rw [← zpow_natCast]
    exact zpow_le_zpow_right₀ (by norm_num) (by omega)
  rw [if_neg huge]
  by_cases tiny : (digitCount digits : Int) + exponent < -330
  · rw [if_pos tiny]
    apply Magnitude.rounds_zero (value_nonneg _)
    have power : (10 : ℚ) ^ ((digitCount digits : Int) + exponent) ≤ 10 ^ (-331 : Int) :=
      zpow_le_zpow_right₀ (by norm_num) (by omega)
    linarith [Magnitude.le_size_one]
  rw [if_neg tiny]
  by_cases whole : 0 ≤ exponent
  · rw [if_pos whole, value_whole whole]
    exact Magnitude.nearest_rounds _ Nat.one_pos
  · rw [if_neg whole, value_fraction (by omega)]
    exact Magnitude.nearest_rounds _ (Nat.pow_pos (by decide))

end Decimal

end WhileLang
