import WhileLang.Proofs.Equivalence
import WhileLang.Proofs.NearestDouble
import WhileLang.Proofs.ShortestDigits

/-!
# Small integers

Up to `2 ^ 53` every whole number is a double (`Magnitude.exists_units`), so reading one of them
loses nothing. Nor does printing it: another whole number that reads as the same double is larger
than `2 ^ 53`, and so this is only possible for `2 ^ 53` itself and its successor
(`Decimal.eq_or_next`). The successor does not end in a zero, so it stands on no coarser grid, and
on the same grid the exact number is the nearer one.
-/

namespace WhileLang

set_option autoImplicit false

namespace Magnitude

theorem finite_scaled {scale significand : Nat} (low : scale ≤ 1075)
    (bound : significand ≤ 2 * stride) :
    scale * stride + significand < infinity := by
  have strides : scale * stride ≤ 1075 * stride := Nat.mul_le_mul_right _ low
  have top : infinity = 2047 * stride := rfl
  have positive := stride_positive
  omega

/-- A number of at most 53 bits fills a significand if it is shifted, and so it does without
shifting at the bound. -/
theorem exists_shift {number : Nat} (positive : 0 < number) (small : number ≤ 2 * stride) :
    ∃ places, places ≤ 52 ∧ stride ≤ number * 2 ^ places ∧ number * 2 ^ places ≤ 2 * stride := by
  by_cases bound : number = 2 * stride
  · refine ⟨0, by decide, ?_, ?_⟩ <;> omega
  have wide : 2 * stride = 2 ^ 53 := rfl
  have short : number.log2 < 53 := (Nat.log2_lt positive.ne').mpr (by omega)
  have low : 2 ^ number.log2 ≤ number := Nat.log2_self_le positive.ne'
  have high : number < 2 ^ (number.log2 + 1) := Nat.lt_log2_self
  have lowFilled : 2 ^ number.log2 * 2 ^ (52 - number.log2) = stride := by
    rw [← Nat.pow_add, Nat.add_sub_of_le (by omega)]
    rfl
  have highFilled : 2 ^ (number.log2 + 1) * 2 ^ (52 - number.log2) = 2 * stride := by
    rw [Nat.pow_succ', Nat.mul_assoc, lowFilled]
  refine ⟨52 - number.log2, by omega, ?_, ?_⟩
  · rw [← lowFilled]
    exact Nat.mul_le_mul_right _ low
  · rw [← highFilled]
    exact Nat.mul_le_mul_right _ high.le

theorem exists_units {number : Nat} (small : number ≤ 2 ^ 53) :
    ∃ code < infinity, units code = number * unitsPerOne := by
  by_cases zero : number = 0
  · refine ⟨0, by decide, ?_⟩
    rw [zero, Nat.zero_mul]
    exact if_pos stride_positive
  obtain ⟨places, few, normal, bound⟩ := exists_shift (Nat.pos_of_ne_zero zero) small
  obtain ⟨one, same⟩ : ∃ one, one = 1074 := ⟨_, rfl⟩
  refine ⟨(one - places) * stride + number * 2 ^ places, finite_scaled (by omega) bound, ?_⟩
  have split : Nat.pow 2 one = Nat.pow 2 (one - places) * Nat.pow 2 places := power_split (by omega)
  have power : Nat.pow 2 places = 2 ^ places := rfl
  rw [units_scaled (.inr normal) bound, units_per_one_eq same, split, power]
  ac_rfl

theorem exists_units_next : ∃ code < infinity, units code = (2 ^ 53 + 2) * unitsPerOne := by
  obtain ⟨one, same⟩ : ∃ one, one = 1074 := ⟨_, rfl⟩
  have bound : 2 ^ 52 + 1 ≤ 2 * stride := by decide
  refine ⟨(one + 1) * stride + (2 ^ 52 + 1), finite_scaled (by omega) bound, ?_⟩
  have double : Nat.pow 2 (one + 1) = 2 * Nat.pow 2 one := Nat.pow_succ'
  have number : (2 ^ 52 + 1) * 2 = 2 ^ 53 + 2 := by decide
  rw [units_scaled (.inr (by decide)) bound, units_per_one_eq same, double, ← Nat.mul_assoc, number]

end Magnitude

namespace Decimal

variable {number other : Nat}

theorem size_whole (exact : ∃ code < Magnitude.infinity,
    Magnitude.units code = number * Magnitude.unitsPerOne) :
    code ⟨number, 0⟩ < Magnitude.infinity ∧ Magnitude.size (code ⟨number, 0⟩) = number := by
  obtain ⟨found, finite, size⟩ := exact
  rw [code_of_units finite size, Magnitude.size, size, Nat.cast_mul,
    mul_div_cancel_right₀ _ Magnitude.units_per_one_positive.ne']
  exact ⟨finite, rfl⟩

theorem size_small (small : number ≤ 2 ^ 53) : Magnitude.size (code ⟨number, 0⟩) = number :=
  (size_whole (Magnitude.exists_units small)).2

theorem code_mono (ordered : number ≤ other) : code ⟨number, 0⟩ ≤ code ⟨other, 0⟩ :=
  (code_rounds _).mono (code_rounds _) (value_mono ordered)

/-- Two whole numbers that read as one double are the same if one is small, but for the tie at `2 ^
53`. -/
theorem eq_or_next (small : number ≤ 2 ^ 53) (reads : code ⟨other, 0⟩ = code ⟨number, 0⟩) :
    other = number ∨ other = 2 ^ 53 + 1 := by
  have size := size_small small
  by_cases low : other ≤ 2 ^ 53
  · have otherSize := size_small low
    rw [reads, size] at otherSize
    exact .inl (Nat.cast_injective otherSize).symm
  by_contra apart
  -- Two behind `2 ^ 53` there is a double again, and it would be the one that both are read as.
  have lower := code_mono (show number ≤ 2 ^ 53 + 2 by omega)
  have upper := code_mono (show 2 ^ 53 + 2 ≤ other by omega)
  have next := (size_whole Magnitude.exists_units_next).2
  rw [reads] at upper
  rw [Nat.le_antisymm upper lower, size] at next
  have same : number = 2 ^ 53 + 2 := Nat.cast_injective next
  omega

theorem Coarsest.eq_small {digits places : Nat} (small : number ≤ 2 ^ 53)
    (found : Coarsest ⟨digits, places⟩ (code ⟨number, 0⟩)) : digits * 10 ^ places = number := by
  cases places with
  | zero =>
    -- The number itself is on the grid, at no distance.
    have nearest := @Coarsest.nearest _ _ found number rfl
    rw [size_small small, value, value] at nearest
    simpa [sub_eq_zero] using nearest
  | succ places =>
    have tens : digits * 10 ^ (places + 1) = digits * 10 ^ places * 10 := by
      rw [Nat.pow_succ, Nat.mul_assoc]
    have reads : code ⟨digits * 10 ^ (places + 1), 0⟩ = code ⟨number, 0⟩ := by
      rw [code_shift, Int.zero_add]
      exact found.reads
    rcases eq_or_next small reads with same | next
    · exact same
    · omega

theorem positional_small (tie : Tie) (small : number ≤ 2 ^ 53) :
    positional (shortest tie (code ⟨number, 0⟩)) = Nat.toDigits 10 number := by
  by_cases zero : number = 0
  · subst zero
    rw [code_whole, if_pos rfl, shortest, if_pos rfl]
    rfl
  have finite := (size_whole (Magnitude.exists_units small)).1
  have nonzero : code ⟨number, 0⟩ ≠ 0 := by
    intro nothing
    have size := size_small small
    rw [nothing, Magnitude.size_zero] at size
    exact zero (Nat.cast_eq_zero.mp size.symm)
  have found := shortest_coarsest tie finite nonzero
  have coarse : 0 ≤ (shortest tie (code ⟨number, 0⟩)).exponent := found.coarsest rfl
  generalize shortest tie (code ⟨number, 0⟩) = decimal at found coarse
  obtain ⟨digits, exponent⟩ := decimal
  obtain ⟨places, rfl⟩ := Int.eq_ofNat_of_zero_le coarse
  have positive : 0 < digits :=
    digits_positive (show (Decimal.mk digits places).code ≠ 0 by rwa [found.reads])
  rw [← found.eq_small small]
  exact positional_shift positive places

end Decimal

theorem print_small_numeral {digits : List Char} (small : digitsValue digits ≤ 2 ^ 53) :
    printNumber (numeralValue digits) = toString (digitsValue digits) := by
  have finite := (Decimal.size_whole (Magnitude.exists_units small)).1
  have sign : isNegative (numeralValue digits) = false := is_negative_of_magnitude false finite.le
  have code : magnitude (numeralValue digits) = Decimal.code ⟨digitsValue digits, 0⟩ :=
    magnitude_of_magnitude false finite.le
  have text := @NumberStyle.write_finite .printed (numeralValue digits) (by rwa [code])
  rw [sign, Bool.false_and, if_neg Bool.false_ne_true, code] at text
  apply String.toList_inj.mp
  rw [printNumber, text]
  exact (Decimal.positional_small .up small).trans String.toList_ofList.symm

theorem parse_print_digits {text : String} (nonempty : text ≠ "")
    (all : ∀ char ∈ text.toList, isDigit char = true) :
    parse ("print " ++ text ++ ";") = .ok (.print (.literal (numeralValue text.toList))) := by
  have shows :=
    Shows.spaced (show (Word.keyword "print").Written by decide) (shows_digits nonempty all)
  have source : (Word.keyword "print").text.toList ++ ' ' :: (text ++ ";").toList =
      ("print " ++ text ++ ";").toList := by
    simp [Word.keyword]
  rw [source] at shows
  have statement := Derives.print (Derives.literal text).of_factor
  exact parse_of_shows shows ⟨_, .more statement .none, .single _⟩

namespace Machine

/-- A program that prints a numeral of at most `2 ^ 53` prints one line, the number without zeros in
front. -/
theorem small_integer_printed (text : String) (nonempty : text ≠ "")
    (all : ∀ char ∈ text.toList, isDigit char = true)
    (small : Nat.ofDigitChars 10 text.toList 0 ≤ 2 ^ 53) (machine : Machine) :
    ∃ tree last, parse ("print " ++ text ++ ";") = .ok tree ∧ Ends tree machine last ∧
      last.output = machine.output ++ [toString (Nat.ofDigitChars 10 text.toList 0)] := by
  have shown :
      printNumber (numeralValue text.toList) = toString (Nat.ofDigitChars 10 text.toList 0) :=
    print_small_numeral small
  have line := seen_note_printed machine (numeralValue text.toList)
  rw [shown] at line
  exact ⟨_, _, parse_print_digits nonempty all, ends_print_iff.mpr rfl, congrArg Prod.snd line⟩

/-- The largest such number, with a zero in front, after a program that has printed something. -/
theorem small_integer_printed_largest :
    "09007199254740992" ≠ "" ∧ (∀ char ∈ "09007199254740992".toList, isDigit char = true) ∧
      Nat.ofDigitChars 10 "09007199254740992".toList 0 ≤ 2 ^ 53 ∧
      ∃ tree last, parse ("print " ++ "09007199254740992" ++ ";") = .ok tree ∧
        Ends tree ⟨.empty, [.printed 0]⟩ last ∧
        last.output = output ⟨.empty, [.printed 0]⟩ ++
          [toString (Nat.ofDigitChars 10 "09007199254740992".toList 0)] := by
  have all : ∀ char ∈ "09007199254740992".toList, isDigit char = true := by simp [isDigit]
  have small : Nat.ofDigitChars 10 "09007199254740992".toList 0 ≤ 2 ^ 53 := by decide +kernel
  exact ⟨by decide, all, small,
    small_integer_printed "09007199254740992" (by decide) all small ⟨.empty, [.printed 0]⟩⟩

end Machine

end WhileLang
