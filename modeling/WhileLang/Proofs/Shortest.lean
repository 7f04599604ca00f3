import WhileLang.Proofs.WholeNumber

/-!
# Shortest decimals

The search for a short decimal accepts only what reads as the code it is for. It always finds
something: a half is five tenths, so on the finest grid, that of `10 ^ (-1074)`, every finite double
stands exactly.
-/

namespace WhileLang

set_option autoImplicit false

namespace Magnitude

theorem units_positive {code : Nat} (nonzero : code ≠ 0) : 0 < units code := by
  by_cases small : code < stride
  · rw [units, if_pos small]
    omega
  · obtain ⟨scale, significand, _, normal, _, sized⟩ := units_of_stride_le small
    rw [sized]
    exact Nat.mul_pos (Nat.lt_of_lt_of_le stride_positive normal) (power_positive scale)

end Magnitude

namespace Decimal

variable {code places : Nat} {tie : Tie}

theorem ten_power (places : Nat) : 10 ^ places = 5 ^ places * 2 ^ places :=
  Nat.mul_pow 5 2 places

theorem ratio_negative (code places : Nat) (positive : 0 < places) :
    ratio code (-places) = (Magnitude.units code * 10 ^ places, Magnitude.unitsPerOne) := by
  have size : (- -(places : Int)).toNat = places := by omega
  rw [ratio, if_neg (by omega), size]
  rfl

theorem refine_finest (finest : places = 1074) :
    refine tie code 0 (-places) = ⟨Magnitude.units code * 5 ^ places, -places⟩ := by
  have positive : 0 < 2 ^ places := Nat.two_pow_pos places
  have whole : Magnitude.unitsPerOne = 2 ^ places := Magnitude.units_per_one_eq finest
  rw [refine, ratio_negative code places (by omega), ten_power, whole, ← Nat.mul_assoc,
    Nat.mul_div_cancel _ positive]

theorem code_finest (finest : places = 1074) (finite : code < Magnitude.infinity) :
    Decimal.code ⟨Magnitude.units code * 5 ^ places, -places⟩ = code := by
  by_cases zero : code = 0
  · subst zero
    simp [Decimal.code, Magnitude.units, Magnitude.stride_positive]
  have power : 0 < 5 ^ places := Nat.pow_pos (by decide)
  have whole : Magnitude.unitsPerOne = 2 ^ places := Magnitude.units_per_one_eq finest
  have above : 10 ^ 750 ≤ Magnitude.units code * 5 ^ places := by
    have large : 10 ^ 750 ≤ 5 ^ places := by
      subst finest
      decide +kernel
    exact Nat.le_trans large (Nat.le_mul_of_pos_left _ (Magnitude.units_positive zero))
  obtain ⟨limit, enough⟩ : ∃ limit, limit = 310 := ⟨_, rfl⟩
  have below : Magnitude.units code * 5 ^ places < 10 ^ (limit + places) := by
    have bound := Nat.mul_lt_mul_of_pos_right (Magnitude.units_lt_limit finite enough) power
    rwa [whole, Nat.mul_assoc, Nat.mul_comm (2 ^ places), ← ten_power, ← Nat.pow_add] at bound
  have long : ¬digitCount (Magnitude.units code * 5 ^ places) ≤ 750 := by
    rw [digit_count_le_iff (by decide)]
    exact Nat.not_lt_of_le above
  have short : digitCount (Magnitude.units code * 5 ^ places) ≤ limit + places :=
    (digit_count_le_iff (by omega)).mpr below
  have nonzero : Magnitude.units code * 5 ^ places ≠ 0 :=
    Nat.ne_of_gt (Nat.mul_pos (Magnitude.units_positive zero) power)
  have size : (- -(places : Int)).toNat = places := by omega
  unfold Decimal.code
  dsimp only
  rw [if_neg nonzero, if_neg (by omega), if_neg (by omega), if_neg (by omega), size]
  apply Magnitude.nearest_of_fraction finite (Nat.pow_pos (by decide))
  rw [whole, Nat.mul_assoc, ← ten_power]

/-- The search answers with what reads as the code, or with what stands on its last grid. -/
theorem refine_reads_of_last {steps : Nat} {exponent : Int}
    (last : (refine tie code 0 (exponent - steps)).code = code) :
    (refine tie code steps exponent).code = code := by
  induction steps generalizing exponent with
  | zero => simpa using last
  | succ steps induction =>
    rw [refine]
    cases found : onGrid tie code exponent with
    | some decimal => exact (on_grid_reads found).1
    | none =>
      apply induction
      have same : exponent - 1 - (steps : Int) = exponent - (steps + 1 : Nat) := by omega
      rwa [same]

theorem ceiling_lower (code : Nat) : -1074 ≤ ceiling code := by
  have short : digitCount (Magnitude.unitsPerOne / Magnitude.units code) ≤ 324 := by
    apply (digit_count_le_iff (by decide)).mpr
    have bound : Magnitude.unitsPerOne < 10 ^ 324 := by decide +kernel
    exact Nat.lt_of_le_of_lt (Nat.div_le_self _ _) bound
  unfold ceiling
  dsimp only
  split
  · omega
  · omega

/-- The shortest decimal of a finite code reads as that code. -/
theorem shortest_reads (tie : Tie) (finite : code < Magnitude.infinity) :
    (shortest tie code).code = code := by
  by_cases zero : code = 0
  · subst zero
    rfl
  obtain ⟨places, finest⟩ : ∃ places, places = 1074 := ⟨_, rfl⟩
  have lower := ceiling_lower code
  have stop : ceiling code - (ceiling code + 1074).toNat = -(places : Int) := by omega
  rw [shortest, if_neg zero]
  apply refine_reads_of_last
  rw [stop, refine_finest finest]
  exact code_finest finest finite

end Decimal

end WhileLang
