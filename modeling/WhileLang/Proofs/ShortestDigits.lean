import WhileLang.Proofs.Rounding
import WhileLang.Proofs.Shortest

/-!
# The fewest digits

The grids of the powers of ten are nested, and the numbers that round to one code are all that lie
between two of them. So if some multiple of a power of ten reads as a code, one of the two next to
the exact size does (`Decimal.on_grid_ne_none`), and the search ends on the coarsest grid with such
a multiple. A decimal with fewer digits than the one found would leave a power of ten between the
two, and that stands on a coarser grid (`Decimal.Coarsest.fewest`). With as many digits on a finer
grid only a decimal of one digit is left, and then the power of ten is the nearer one
(`Magnitude.power_nearer`).
-/

namespace WhileLang

set_option autoImplicit false

namespace Magnitude

variable {number first last : ℚ} {code other : Nat}

theorem size_rounds (finite : code < infinity) : Rounds (size code) code := by
  have below : size code ≤ size (infinity - 1) := size_strict_mono.monotone (by omega)
  have top : size (infinity - 1) < size infinity := size_strict_mono (by decide)
  refine .finite (by linarith [limit_eq]) ⟨finite, fun other _ => ?_,
    fun other _ differs same => ?_⟩
  · rw [sub_self, abs_zero]
    exact abs_nonneg _
  · rw [sub_self, abs_zero] at same
    exact absurd (size_strict_mono.injective (sub_eq_zero.mp (abs_eq_zero.mp same.symm))) differs

theorem Rounds.between (low : Rounds first code) (high : Rounds last code)
    (rounds : Rounds number other)
    (above : first ≤ number) (below : number ≤ last) : other = code :=
  Nat.le_antisymm (rounds.mono high below) (low.mono rounds above)

/-- What rounds to a code is not beyond the middles between its size and those of the neighbours. -/
theorem Rounds.le_middle (rounds : Rounds number code) (finite : code < infinity) :
    2 * number ≤ size code + size (code + 1) := by
  cases rounds with
  | overflow large top => omega
  | finite small nearest =>
    by_cases inside : code + 1 < infinity
    · exact (nearer_below_iff (size_strict_mono (Nat.lt_succ_self code))).mp
        (nearest.nearest _ inside)
    · have highest : code = infinity - 1 := by omega
      have next : infinity - 1 + 1 = infinity := by decide
      rw [highest, next]
      linarith [limit_eq]

theorem Rounds.middle_le (rounds : Rounds number (code + 1)) (finite : code + 1 < infinity) :
    size code + size (code + 1) ≤ 2 * number := by
  cases rounds with
  | overflow large top => omega
  | finite small nearest =>
    exact (nearer_above_iff (size_strict_mono (Nat.lt_succ_self code))).mp
      (nearest.nearest code (by omega))

theorem size_step {count : Nat} (small : count ≤ stride) (least : count ≤ code) :
    count * (size (code + 1) - size code) ≤ size code := by
  obtain ⟨scale, significand, here, next, large⟩ := units_step code
  have enough : count * Nat.pow 2 scale ≤ significand * Nat.pow 2 scale :=
    Nat.mul_le_mul_right _ (by omega)
  have scaled : (count : ℚ) * (Nat.pow 2 scale : Nat) ≤ significand * (Nat.pow 2 scale : Nat) := by
    exact_mod_cast enough
  have step : size (code + 1) - size code = (Nat.pow 2 scale : Nat) / unitsPerOne := by
    rw [size, size, here, next, Nat.cast_mul, Nat.cast_mul, ← sub_div, Nat.cast_succ]
    ring
  rw [step, size, here, Nat.cast_mul, mul_div_assoc']
  exact div_le_div_of_nonneg_right scaled units_per_one_positive.le

theorem Rounds.lt_twice (rounds : Rounds number code) (finite : code < infinity)
    (nonzero : code ≠ 0) :
    number < 2 * size code := by
  have positive : size 0 < size code := size_strict_mono (Nat.pos_of_ne_zero nonzero)
  have step := size_step (show 1 ≤ stride by decide) (Nat.one_le_iff_ne_zero.mpr nonzero)
  have middle := rounds.le_middle finite
  rw [size_zero] at positive
  rw [Nat.cast_one, one_mul] at step
  linarith

theorem size_subnormal (small : code < stride) : size code = code * size 1 := by
  rw [size_one, size, units, if_pos small, mul_one_div]

theorem power_above_two :
    2 * size 1 < (10 : ℚ) ^ (-323 : Int) ∧ 10 * (10 : ℚ) ^ (-323 : Int) < 21 * size 1 := by
  have lower : 2 * 10 ^ 323 < unitsPerOne := by decide +kernel
  have upper : 10 * unitsPerOne < 21 * 10 ^ 323 := by decide +kernel
  have lowerScaled : (2 : ℚ) * 10 ^ 323 < unitsPerOne := by exact_mod_cast lower
  have upperScaled : (10 : ℚ) * unitsPerOne < 21 * 10 ^ 323 := by exact_mod_cast upper
  have power : (10 : ℚ) ^ (-323 : Int) = 1 / 10 ^ 323 := by
    rw [zpow_neg, one_div]
    rfl
  have whole : (0 : ℚ) < 10 ^ 323 := by positivity
  rw [size_one, power, mul_one_div, mul_one_div, mul_one_div,
    div_lt_div_iff₀ units_per_one_positive whole, div_lt_div_iff₀ whole units_per_one_positive,
    one_mul]
  exact ⟨lowerScaled, upperScaled⟩

theorem exponent_of_few {exponent : Int} (least : 5 * size 1 ≤ 9 * (10 : ℚ) ^ exponent)
    (most : 2 * (10 : ℚ) ^ exponent ≤ 19 * size 1) : exponent = -323 := by
  obtain ⟨lower, upper⟩ := power_above_two
  have positive : (0 : ℚ) < 10 ^ exponent := by positivity
  apply le_antisymm
  · by_contra larger
    have power : (10 : ℚ) ^ ((-323 : Int) + 1) ≤ 10 ^ exponent :=
      zpow_le_zpow_right₀ (by norm_num) (by omega)
    rw [zpow_add_one₀ (by norm_num)] at power
    linarith
  · by_contra smaller
    have power : (10 : ℚ) ^ (exponent + 1) ≤ 10 ^ (-323 : Int) :=
      zpow_le_zpow_right₀ (by norm_num) (by omega)
    rw [zpow_add_one₀ (by norm_num)] at power
    linarith

theorem not_apart_of_le {power : ℚ} (large : Rounds power code) (rounds : Rounds number code)
    (finite : code < infinity) (normal : 10 ≤ code) : 9 * power < 10 * number := by
  obtain ⟨before, rfl⟩ : ∃ before, code = before + 1 := ⟨code - 1, by omega⟩
  have above := large.le_middle finite
  have below := rounds.middle_le finite
  have step := size_step (show 10 ≤ stride by decide) normal
  have stepBefore := size_step (show 9 ≤ stride by decide) (show 9 ≤ before by omega)
  have positive : size 0 < size (before + 1) := size_strict_mono (Nat.succ_pos before)
  rw [size_zero] at positive
  norm_num at step stepBefore
  linarith

/-- Of a power of ten and a number at most nine tenths of it, both rounding to one code, the power
is the nearer. -/
theorem power_nearer {exponent : Int} (large : Rounds ((10 : ℚ) ^ exponent) code)
    (rounds : Rounds number code) (finite : code < infinity) (nonzero : code ≠ 0)
    (apart : 10 * number ≤ 9 * (10 : ℚ) ^ exponent) :
    |(10 : ℚ) ^ exponent - size code| ≤ |number - size code| := by
  by_cases normal : 10 ≤ code
  · exact absurd apart (not_le.mpr (not_apart_of_le large rounds finite normal))
  obtain ⟨before, rfl⟩ : ∃ before, code = before + 1 := ⟨code - 1, by omega⟩
  have unit : size 0 < size 1 := size_strict_mono Nat.zero_lt_one
  have above := large.le_middle finite
  have below := rounds.middle_le finite
  have wide : 10 < stride := by decide
  have first := size_subnormal (show before < stride by omega)
  have here := size_subnormal (show before + 1 < stride by omega)
  have next := size_subnormal (show before + 1 + 1 < stride by omega)
  push_cast at here next
  rw [size_zero] at unit
  have fewest : 0 ≤ (before : ℚ) * size 1 := by positivity
  have most : (before : ℚ) * size 1 ≤ 8 * size 1 := by
    apply mul_le_mul_of_nonneg_right _ unit.le
    exact_mod_cast (show before ≤ 8 by omega)
  obtain ⟨lower, upper⟩ := power_above_two
  obtain rfl : exponent = -323 := exponent_of_few (by linarith) (by linarith)
  have second : before = 1 := by
    have least : (1 / 2 : ℚ) * size 1 < before * size 1 := by linarith
    have greatest : (before : ℚ) * size 1 < (3 / 2) * size 1 := by linarith
    have positive : (1 / 2 : ℚ) < before := lt_of_mul_lt_mul_right least unit.le
    have small : (before : ℚ) < 3 / 2 := lt_of_mul_lt_mul_right greatest unit.le
    apply Nat.le_antisymm
    · apply Nat.le_of_lt_succ
      exact_mod_cast (show (before : ℚ) < 2 by linarith)
    · exact_mod_cast (show (0 : ℚ) < before by linarith)
  subst second
  rw [abs_of_pos (by linarith), abs_of_neg (by linarith)]
  linarith

end Magnitude

namespace Decimal

open Magnitude (size)

variable {tie : Tie} {code digits numerator denominator : Nat} {exponent : Int} {decimal : Decimal}

theorem ratio_scaled (code : Nat) (exponent : Int) : ∃ numerator denominator,
    ratio code exponent = (numerator, denominator) ∧ 0 < denominator ∧
      size code * denominator = numerator * 10 ^ exponent := by
  have one := Magnitude.units_per_one_positive
  have positive : 0 < Magnitude.unitsPerOne := by exact_mod_cast one
  unfold ratio size
  generalize Magnitude.unitsPerOne = whole at *
  by_cases large : 0 ≤ exponent
  · obtain ⟨places, rfl⟩ : ∃ places : Nat, exponent = places := ⟨exponent.toNat, by omega⟩
    rw [if_pos large, Int.toNat_natCast]
    refine ⟨_, _, rfl, Nat.mul_pos positive (Nat.pow_pos (by decide)), ?_⟩
    rw [Nat.cast_mul, ← mul_assoc, div_mul_cancel₀ _ one.ne', zpow_natCast]
    congr 1
    exact Nat.cast_pow 10 places
  · obtain ⟨places, rfl⟩ : ∃ places : Nat, exponent = -places := ⟨(-exponent).toNat, by omega⟩
    have power : (10 : ℚ) ^ places ≠ 0 := by positivity
    rw [if_neg large, neg_neg, Int.toNat_natCast]
    refine ⟨_, _, rfl, positive, ?_⟩
    have cast : ((Nat.pow 10 places : Nat) : ℚ) = 10 ^ places := Nat.cast_pow 10 places
    rw [Nat.cast_mul, cast, div_mul_cancel₀ _ one.ne', zpow_neg, zpow_natCast, mul_assoc,
      mul_inv_cancel₀ power, mul_one]

/-- What the search on one grid answers, and how it chooses if both neighbours would do. -/
theorem on_grid_cases (found : onGrid tie code exponent = some decimal)
    (grid : ratio code exponent = (numerator, denominator)) :
    decimal = ⟨numerator / denominator, exponent⟩ ∧
      (Decimal.code ⟨numerator / denominator + 1, exponent⟩ = code →
        2 * (numerator % denominator) ≤ denominator) ∨
    decimal = ⟨numerator / denominator + 1, exponent⟩ ∧
      (Decimal.code ⟨numerator / denominator, exponent⟩ = code →
        denominator ≤ 2 * (numerator % denominator)) := by
  unfold onGrid at found
  rw [grid] at found
  dsimp only at found
  split at found
  next below =>
    split at found
    next above =>
      split at found
      · cases found
        exact .inl ⟨rfl, fun _ => by omega⟩
      · split at found
        · cases found
          exact .inr ⟨rfl, fun _ => by omega⟩
        · grind
    next above =>
      cases found
      exact .inl ⟨rfl, fun contrary => absurd contrary above⟩
  next below =>
    split at found
    · cases found
      exact .inr ⟨rfl, fun contrary => absurd contrary below⟩
    · cases found

theorem on_grid_of_neighbour (grid : ratio code exponent = (numerator, denominator))
    (reads : Decimal.code ⟨numerator / denominator, exponent⟩ = code ∨
      Decimal.code ⟨numerator / denominator + 1, exponent⟩ = code) :
    onGrid tie code exponent ≠ none := by
  unfold onGrid
  rw [grid]
  dsimp only
  grind

theorem size_between (grid : size code * denominator = numerator * 10 ^ exponent)
    (positive : 0 < denominator) :
    value ⟨numerator / denominator, exponent⟩ ≤ size code ∧
      size code < value ⟨numerator / denominator + 1, exponent⟩ ∧
      (denominator ≤ 2 * (numerator % denominator) →
        value ⟨numerator / denominator, exponent⟩ +
          value ⟨numerator / denominator + 1, exponent⟩ ≤ 2 * size code) ∧
      (2 * (numerator % denominator) ≤ denominator →
        2 * size code ≤ value ⟨numerator / denominator, exponent⟩ +
          value ⟨numerator / denominator + 1, exponent⟩) := by
  have weight : (0 : ℚ) < denominator := by exact_mod_cast positive
  have power : (0 : ℚ) ≤ 10 ^ exponent := by positivity
  have divided : (numerator : ℚ) =
      denominator * (numerator / denominator : Nat) + (numerator % denominator : Nat) := by
    exact_mod_cast (Nat.div_add_mod numerator denominator).symm
  have rest : ((numerator % denominator : Nat) : ℚ) < denominator := by
    exact_mod_cast Nat.mod_lt numerator positive
  have least : (0 : ℚ) ≤ (numerator % denominator : Nat) := by positivity
  rw [divided] at grid
  unfold value
  dsimp only
  refine ⟨le_of_mul_le_mul_right ?_ weight, lt_of_mul_lt_mul_right ?_ weight.le, fun upper => ?_,
    fun lower => ?_⟩
  · linarith [mul_nonneg least power]
  · have step : (0 : ℚ) < 10 ^ exponent := by positivity
    push_cast
    linarith [mul_lt_mul_of_pos_right rest step]
  · have share : (denominator : ℚ) ≤ 2 * (numerator % denominator : Nat) := by exact_mod_cast upper
    apply le_of_mul_le_mul_right _ weight
    push_cast
    linarith [mul_le_mul_of_nonneg_right share power]
  · have share : 2 * ((numerator % denominator : Nat) : ℚ) ≤ denominator := by exact_mod_cast lower
    apply le_of_mul_le_mul_right _ weight
    push_cast
    linarith [mul_le_mul_of_nonneg_right share power]

theorem value_mono {other : Nat} (ordered : digits ≤ other) :
    value ⟨digits, exponent⟩ ≤ value ⟨other, exponent⟩ := by
  unfold value
  dsimp only
  gcongr

theorem neighbour_reads (finite : code < Magnitude.infinity)
    (reads : Decimal.code ⟨digits, exponent⟩ = code)
    (grid : size code * denominator = numerator * 10 ^ exponent) (positive : 0 < denominator) :
    digits ≤ numerator / denominator ∧ Decimal.code ⟨numerator / denominator, exponent⟩ = code ∨
      numerator / denominator + 1 ≤ digits ∧
        Decimal.code ⟨numerator / denominator + 1, exponent⟩ = code := by
  obtain ⟨below, above, _⟩ := size_between grid positive
  have exact := Magnitude.size_rounds finite
  have rounds := code_rounds ⟨digits, exponent⟩
  rw [reads] at rounds
  by_cases low : digits ≤ numerator / denominator
  · exact .inl ⟨low, rounds.between exact (code_rounds _) (value_mono low) below⟩
  · have high : numerator / denominator + 1 ≤ digits := by omega
    exact .inr ⟨high, exact.between rounds (code_rounds _) above.le (value_mono high)⟩

theorem on_grid_ne_none (finite : code < Magnitude.infinity)
    (reads : Decimal.code ⟨digits, exponent⟩ = code) :
    onGrid tie code exponent ≠ none := by
  obtain ⟨numerator, denominator, same, positive, grid⟩ := ratio_scaled code exponent
  apply on_grid_of_neighbour same
  exact (neighbour_reads finite reads grid positive).imp And.right And.right

/-- What is found on a grid is the multiple nearest to the exact size that reads as the code. -/
theorem on_grid_nearest (finite : code < Magnitude.infinity)
    (found : onGrid tie code exponent = some decimal)
    (reads : Decimal.code ⟨digits, exponent⟩ = code) :
    |decimal.value - size code| ≤ |value ⟨digits, exponent⟩ - size code| := by
  obtain ⟨numerator, denominator, same, positive, grid⟩ := ratio_scaled code exponent
  obtain ⟨below, above, upper, lower⟩ := size_between grid positive
  have ordered := below.trans_lt above
  have cases := on_grid_cases found same
  rcases neighbour_reads finite reads grid positive with ⟨low, lowReads⟩ | ⟨high, highReads⟩
  · refine le_trans ?_ (Set.abs_sub_left_of_mem_uIcc
      (Set.mem_uIcc.mpr (.inr ⟨value_mono low, below⟩)))
    rcases cases with ⟨rfl, _⟩ | ⟨rfl, chosen⟩
    · exact le_rfl
    · exact (nearer_above_iff ordered).mpr (upper (chosen lowReads))
  · refine le_trans ?_ (Set.abs_sub_left_of_mem_uIcc
      (Set.mem_uIcc.mpr (.inl ⟨above.le, value_mono high⟩)))
    rcases cases with ⟨rfl, chosen⟩ | ⟨rfl, _⟩
    · exact (nearer_below_iff ordered).mpr (lower (chosen highReads))
    · exact le_rfl

theorem on_grid_finest {places : Nat} (finest : places = 1074)
    (finite : code < Magnitude.infinity) :
    onGrid tie code (-places) = some (refine tie code 0 (-places)) := by
  have reads := code_finest finest finite
  have power : 0 < 2 ^ places := Nat.two_pow_pos places
  have whole : Magnitude.unitsPerOne = 2 ^ places := Magnitude.units_per_one_eq finest
  have same := ratio_negative code places (by omega)
  rw [whole, ten_power, ← Nat.mul_assoc] at same
  have hit : onGrid tie code (-places) ≠ none := on_grid_ne_none finite reads
  obtain ⟨decimal, found⟩ := Option.ne_none_iff_exists'.mp hit
  have cases := on_grid_cases found same
  rw [Nat.mul_div_cancel _ power, Nat.mul_mod_left] at cases
  rw [found, refine_finest finest]
  rcases cases with ⟨rfl, _⟩ | ⟨_, chosen⟩
  · rfl
  · exact absurd (chosen reads) (by omega)

/-- The search ends on the coarsest grid on which something is found. -/
theorem refine_coarsest {steps : Nat} {exponent : Int}
    (last : onGrid tie code (exponent - steps) = some (refine tie code 0 (exponent - steps))) :
    onGrid tie code (refine tie code steps exponent).exponent =
      some (refine tie code steps exponent) ∧
      ∀ other ≤ exponent, onGrid tie code other ≠ none →
        other ≤ (refine tie code steps exponent).exponent := by
  induction steps generalizing exponent with
  | zero =>
    rw [Nat.cast_zero, Int.sub_zero] at last
    exact ⟨last, fun other bound _ => bound⟩
  | succ steps induction =>
    rw [refine]
    cases found : onGrid tie code exponent with
    | some decimal =>
      obtain rfl := (on_grid_reads found).2
      exact ⟨found, fun other bound _ => bound⟩
    | none =>
      have same : exponent - 1 - (steps : Int) = exponent - (steps + 1 : Nat) := by omega
      obtain ⟨here, coarsest⟩ := induction (by rwa [same])
      refine ⟨here, fun other bound hit => coarsest other ?_ hit⟩
      have differs : other ≠ exponent := by
        rintro rfl
        exact hit found
      omega

theorem lt_ceiling (nonzero : code ≠ 0) : size code < 10 ^ ceiling code := by
  have positive := Magnitude.units_positive nonzero
  have scaled : (0 : ℚ) < Magnitude.units code := by exact_mod_cast positive
  have one := Magnitude.units_per_one_positive
  have whole : 0 < Magnitude.unitsPerOne := by exact_mod_cast one
  unfold ceiling size
  dsimp only
  generalize Magnitude.unitsPerOne = unit at *
  generalize Magnitude.units code = units at *
  split
  next large =>
    obtain ⟨_, upper, _⟩ := digit_count_bounds (Nat.div_pos large whole)
    have below := (Nat.div_lt_iff_lt_mul whole).mp upper
    rw [div_lt_iff₀ one, zpow_natCast]
    exact_mod_cast below
  next small =>
    obtain ⟨lower, _, count⟩ := digit_count_bounds (Nat.div_pos (Nat.le_of_not_le small) positive)
    have below := (Nat.le_div_iff_mul_le positive).mp lower
    generalize digitCount (unit / units) = length at *
    obtain ⟨places, rfl⟩ : ∃ places, length = places + 1 := ⟨length - 1, by omega⟩
    have scaledBelow : (10 : ℚ) ^ places * units ≤ unit := by exact_mod_cast below
    have power : (0 : ℚ) < 10 ^ places := by positivity
    have split : (2 : Int) - (places + 1 : Nat) = 1 + -places := by omega
    rw [split, zpow_add₀ (by norm_num), zpow_neg, zpow_natCast, zpow_one, ← div_eq_mul_inv,
      div_lt_div_iff₀ one power]
    linarith

/-- The decimal reads as the code, no decimal on a coarser grid does, and none on its own grid is
nearer. -/
structure Coarsest (decimal : Decimal) (code : Nat) : Prop where
  reads : decimal.code = code
  coarsest : ∀ {digits exponent}, Decimal.code ⟨digits, exponent⟩ = code →
    exponent ≤ decimal.exponent
  nearest : ∀ {digits}, Decimal.code ⟨digits, decimal.exponent⟩ = code →
    |decimal.value - size code| ≤ |value ⟨digits, decimal.exponent⟩ - size code|

theorem digits_positive (nonzero : decimal.code ≠ 0) : 0 < decimal.digits := by
  apply Nat.pos_of_ne_zero
  intro zero
  exact nonzero (if_pos zero)

theorem value_single (exponent : Int) : value ⟨1, exponent⟩ = 10 ^ exponent := by
  rw [value, Nat.cast_one, one_mul]

theorem exponent_le_ceiling (finite : code < Magnitude.infinity) (nonzero : code ≠ 0)
    (reads : Decimal.code ⟨digits, exponent⟩ = code) : exponent ≤ ceiling code := by
  by_contra high
  have positive : 1 ≤ digits :=
    digits_positive (show (Decimal.mk digits exponent).code ≠ 0 by rwa [reads])
  have rounds := code_rounds ⟨digits, exponent⟩
  rw [reads] at rounds
  have small := rounds.lt_twice finite nonzero
  have single : value ⟨1, exponent⟩ ≤ value ⟨digits, exponent⟩ := value_mono positive
  have power : (10 : ℚ) ^ (ceiling code + 1) ≤ 10 ^ exponent :=
    zpow_le_zpow_right₀ (by norm_num) (by omega)
  have proper : (0 : ℚ) < 10 ^ ceiling code := by positivity
  rw [value_single] at single
  rw [zpow_add_one₀ (by norm_num)] at power
  linarith [lt_ceiling nonzero]

theorem shortest_coarsest (tie : Tie) (finite : code < Magnitude.infinity) (nonzero : code ≠ 0) :
    Coarsest (shortest tie code) code := by
  obtain ⟨places, finest⟩ : ∃ places, places = 1074 := ⟨_, rfl⟩
  have lower := ceiling_lower code
  have stop : ceiling code - (ceiling code + 1074).toNat = -(places : Int) := by omega
  have last : onGrid tie code (-places) = some (refine tie code 0 (-places)) :=
    on_grid_finest finest finite
  rw [← stop] at last
  obtain ⟨found, coarsest⟩ := refine_coarsest last
  rw [shortest, if_neg nonzero]
  refine ⟨(on_grid_reads found).1, fun reads => ?_, on_grid_nearest finite found⟩
  exact coarsest _ (exponent_le_ceiling finite nonzero reads) (on_grid_ne_none finite reads)

namespace Coarsest

variable {other : Decimal}

theorem not_dvd (found : Coarsest decimal code) : ¬10 ∣ decimal.digits := by
  rintro ⟨rest, same⟩
  have shifted := code_shift rest 1 decimal.exponent
  rw [Nat.pow_one, Nat.mul_comm, ← same] at shifted
  have coarser := found.coarsest (shifted.symm.trans found.reads)
  omega

/-- Between a decimal below a power of ten and the decimal found, which is not below it, only that
of a single digit does not stand on a coarser grid. -/
theorem power_reads (found : Coarsest decimal code) (nonzero : code ≠ 0) (reads : other.code = code)
    (less : digitCount other.digits + other.exponent <
      digitCount decimal.digits + decimal.exponent) :
    digitCount decimal.digits = 1 ∧ Decimal.code ⟨1, decimal.exponent⟩ = code := by
  have positive := digits_positive (show decimal.code ≠ 0 by rwa [found.reads])
  have otherPositive := digits_positive (show other.code ≠ 0 by rwa [reads])
  obtain ⟨_, _, count⟩ := digit_count_bounds positive
  obtain ⟨lower, _⟩ := value_bounds positive
  obtain ⟨_, upper⟩ := value_bounds otherPositive
  have ordered : (10 : ℚ) ^ (digitCount other.digits + other.exponent) ≤
      10 ^ (digitCount decimal.digits + decimal.exponent - 1) :=
        zpow_le_zpow_right₀ (by norm_num) (by omega)
  have low := code_rounds other
  have high := code_rounds decimal
  have power := code_rounds ⟨1, digitCount decimal.digits + decimal.exponent - 1⟩
  rw [reads] at low
  rw [found.reads] at high
  have hit := low.between high power (by rw [value_single]; linarith)
    (by rw [value_single]; exact lower)
  have finer := found.coarsest hit
  have single : digitCount decimal.digits = 1 := by omega
  have same : (digitCount decimal.digits : Int) + decimal.exponent - 1 = decimal.exponent := by
    omega
  rw [same] at hit
  exact ⟨single, hit⟩

/-- No decimal with fewer digits reads as the code. -/
theorem fewest (found : Coarsest decimal code) (nonzero : code ≠ 0) (reads : other.code = code) :
    digitCount decimal.digits ≤ digitCount other.digits := by
  by_contra fewer
  have finer : other.exponent ≤ decimal.exponent := found.coarsest reads
  obtain ⟨single, _⟩ := found.power_reads nonzero reads (by omega)
  obtain ⟨_, _, count⟩ := digit_count_bounds (digits_positive (show other.code ≠ 0 by rwa [reads]))
  omega

theorem nearest_of_count (found : Coarsest decimal code) (finite : code < Magnitude.infinity)
    (nonzero : code ≠ 0)
    (reads : other.code = code) (same : digitCount other.digits = digitCount decimal.digits) :
    |decimal.value - size code| ≤ |other.value - size code| := by
  have finer : other.exponent ≤ decimal.exponent := found.coarsest reads
  by_cases level : other.exponent = decimal.exponent
  · have nearest := @nearest _ _ found other.digits
    rw [← level] at nearest
    exact nearest reads
  obtain ⟨single, hit⟩ := found.power_reads nonzero reads (by omega)
  refine (found.nearest hit).trans ?_
  have power := code_rounds ⟨1, decimal.exponent⟩
  have rounds := code_rounds other
  rw [hit] at power
  rw [reads] at rounds
  rw [value_single] at power ⊢
  apply Magnitude.power_nearer power rounds finite nonzero
  have digit : other.digits ≤ 9 := by
    obtain ⟨_, below, _⟩ :=
      digit_count_bounds (digits_positive (show other.code ≠ 0 by rwa [reads]))
    rw [same, single] at below
    omega
  calc 10 * other.value = other.digits * (10 : ℚ) ^ (other.exponent + 1) := by
        rw [value, zpow_add_one₀ (by norm_num)]
        ring
    _ ≤ 9 * (10 : ℚ) ^ decimal.exponent := by
        apply mul_le_mul
        · exact_mod_cast digit
        · exact zpow_le_zpow_right₀ (by norm_num) (by omega)
        · positivity
        · norm_num

end Coarsest

end Decimal

end WhileLang
