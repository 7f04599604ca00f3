import WhileLang.Proofs.Shortest

/-!
# Reading written numbers

A decimal is written in one of several layouts, and all of them can be read: the text has digits,
perhaps a point with further digits, and perhaps an exponent (`Legible.of_parts`), and what is read
has the same nearest double. So a style whose layout is legible loses no finite double
(`NumberStyle.read_write`), the sign of a zero apart.
-/

namespace WhileLang

set_option autoImplicit false

def isNumeric (char : Char) : Bool :=
  isDigit char || ['.', 'e', '+', '-'].contains char

theorem drop_while_append {accept : Char → Bool} {left right : List Char}
    (accepted : ∀ char ∈ left, accept char = true)
    (apart : ∀ char ∈ right.head?, accept char = false) :
    (left ++ right).dropWhile accept = right := by
  rw [List.dropWhile_append_of_pos accepted]
  cases right with
  | nil => rfl
  | cons first rest => exact List.dropWhile_cons_of_neg (by simp [apart first rfl])

theorem digits_value_to_digits (number : Nat) : digitsValue (Nat.toDigits 10 number) = number :=
  Nat.ofDigitChars_ten_toDigits

theorem digits_value_zeros (number places : Nat) :
    digitsValue (Nat.toDigits 10 number ++ List.replicate places '0') = number * 10 ^ places := by
  have split := Nat.ofDigitChars_append (b := 10) (l := Nat.toDigits 10 number)
    (m := List.replicate places '0') 0
  rw [Nat.ofDigitChars_ten_toDigits, Nat.ofDigitChars_replicate_zero, Nat.mul_comm] at split
  exact split

theorem digits_value_leading_zeros (places : Nat) (digits : List Char) :
    digitsValue (List.replicate places '0' ++ digits) = digitsValue digits := by
  have split := Nat.ofDigitChars_append (b := 10) (l := List.replicate places '0') (m := digits) 0
  rw [Nat.ofDigitChars_replicate_zero, Nat.mul_zero] at split
  exact split

theorem digit_range {char : Char} (digit : isDigit char = true) :
    48 ≤ char.toNat ∧ char.toNat ≤ 57 := by
  simp only [isDigit, Bool.and_eq_true, decide_eq_true_eq] at digit
  exact digit

namespace Numeral

/-- A point with the digits behind it. Without such digits there is no point. -/
def pointed (fraction : List Char) : List Char :=
  if fraction = [] then [] else '.' :: fraction

variable {whole fraction rest : List Char} {exponent : Int}

theorem exponent_head (read : exponent? rest = some exponent) :
    ∀ char ∈ rest.head?, isDigit char = false ∧ char ≠ '.' := by
  cases rest with
  | nil => simp
  | cons mark rest =>
    intro char first
    cases first
    rw [exponent?] at read
    split at read
    next marked =>
      rcases (Bool.or_eq_true _ _).mp marked with lower | upper
      · rw [of_decide_eq_true lower]
        decide
      · rw [of_decide_eq_true upper]
        decide
    next => cases read

theorem span_digits {left right : List Char} (digits : ∀ char ∈ left, isDigit char = true)
    (apart : ∀ char ∈ right.head?, isDigit char = false) :
    (left ++ right).takeWhile isDigit = left ∧ (left ++ right).dropWhile isDigit = right := by
  constructor
  · apply (take_while_append_iff isDigit left right).mpr
    exact ⟨(take_while_eq_self_iff isDigit left).mpr digits, apart⟩
  · exact drop_while_append digits apart

/-- Digits around a point, of which one side may be empty, and an exponent are read as what they
say. -/
theorem decimal_of_point (proper : whole ≠ [] ∨ fraction ≠ [])
    (digits : ∀ char ∈ whole, isDigit char = true)
    (further : ∀ char ∈ fraction, isDigit char = true) (read : exponent? rest = some exponent) :
    decimal? (whole ++ '.' :: (fraction ++ rest)) =
      some ⟨digitsValue (whole ++ fraction), exponent - fraction.length⟩ := by
  have behind := exponent_head read
  have point : ∀ char ∈ ('.' :: (fraction ++ rest)).head?, isDigit char = false := by
    intro char first
    cases first
    decide
  have nonempty : ¬(whole = [] ∧ fraction = []) := by
    rintro ⟨rfl, rfl⟩
    exact proper.elim (absurd rfl) (absurd rfl)
  obtain ⟨taken, left⟩ := span_digits digits point
  obtain ⟨takenNext, leftNext⟩ := span_digits further (fun char first => (behind char first).1)
  unfold decimal?
  dsimp only
  rw [taken, left]
  simp [takenNext, leftNext, nonempty, read]

theorem decimal_of_parts (nonempty : whole ≠ []) (digits : ∀ char ∈ whole, isDigit char = true)
    (further : ∀ char ∈ fraction, isDigit char = true) (read : exponent? rest = some exponent) :
    decimal? (whole ++ (pointed fraction ++ rest)) =
      some ⟨digitsValue (whole ++ fraction), exponent - fraction.length⟩ := by
  by_cases none : fraction = []
  · subst none
    have behind := exponent_head read
    obtain ⟨taken, left⟩ := span_digits digits (fun char first => (behind char first).1)
    have noPoint : ¬rest.head? = some '.' := by
      intro point
      exact (behind '.' point).2 rfl
    unfold decimal?
    dsimp only [pointed]
    rw [if_pos rfl, List.nil_append, taken, left]
    simp [noPoint, nonempty, read]
  · rw [pointed, if_neg none]
    exact decimal_of_point (.inl nonempty) digits further read

theorem read_of_digit {first : Char} {rest : List Char} (digit : isDigit first = true)
    (negative : Bool) :
    read? (if negative then '-' :: first :: rest else first :: rest) =
      (decimal? (first :: rest)).map (·.toFloat negative) := by
  have minus : first ≠ '-' := by
    rintro rfl
    exact absurd digit (by decide)
  have plus : first ≠ '+' := by
    rintro rfl
    exact absurd digit (by decide)
  have split : splitSign (if negative then '-' :: first :: rest else first :: rest) =
      (negative, first :: rest) := by
    cases negative with
    | false => simp [splitSign, minus, plus]
    | true => rfl
  have ordinary : special? (first :: rest) = none := by
    have range := digit_range digit
    have upper : ¬first.isUpper = true := by
      simp only [Char.isUpper, decide_eq_true_eq, UInt32.le_iff_toNat_le, Char.toNat_val]
      change ¬(65 ≤ first.toNat ∧ first.toNat ≤ 90)
      omega
    have other : first ≠ 'i' ∧ first ≠ 'n' := by
      constructor
      · rintro rfl
        exact absurd digit (by decide)
      · rintro rfl
        exact absurd digit (by decide)
    simp [special?, Char.toLower_eq_of_not_isUpper upper, other]
  rw [read?, split]
  dsimp only
  rw [ordinary]

end Numeral

/-- The text is made of the characters of numbers, starts with a digit, and is read as a decimal
with the same nearest double. -/
structure Legible (text : List Char) (decimal : Decimal) : Prop where
  opens : ∃ first rest, text = first :: rest ∧ isDigit first = true
  numeric : ∀ char ∈ text, isNumeric char = true
  reads : ∃ read, Numeral.decimal? text = some read ∧ read.code = decimal.code

theorem numeric_of_digit {char : Char} (digit : isDigit char = true) : isNumeric char = true := by
  rw [isNumeric, digit, Bool.true_or]

namespace Legible

open Numeral

variable {text whole fraction rest : List Char} {exponent : Int} {decimal : Decimal}

theorem of_parts (nonempty : whole ≠ []) (digits : ∀ char ∈ whole, isDigit char = true)
    (further : ∀ char ∈ fraction, isDigit char = true) (read : exponent? rest = some exponent)
    (numeric : ∀ char ∈ rest, isNumeric char = true)
    (same : Decimal.code ⟨digitsValue (whole ++ fraction), exponent - fraction.length⟩ =
      decimal.code) :
    Legible (whole ++ (pointed fraction ++ rest)) decimal where
  opens := by
    obtain ⟨first, others, rfl⟩ := List.exists_cons_of_ne_nil nonempty
    exact ⟨first, _, rfl, digits first (by simp)⟩
  numeric := by
    have point : ∀ char ∈ pointed fraction, isNumeric char = true := by
      intro char member
      unfold pointed at member
      split at member
      · cases member
      · rcases List.mem_cons.mp member with rfl | digit
        · rfl
        · exact numeric_of_digit (further char digit)
    intro char member
    rcases List.mem_append.mp member with front | behind
    · exact numeric_of_digit (digits char front)
    · rcases List.mem_append.mp behind with middle | last
      · exact point char middle
      · exact numeric char last
  reads := ⟨_, decimal_of_parts nonempty digits further read, same⟩

theorem of_digits (nonempty : whole ≠ []) (digits : ∀ char ∈ whole, isDigit char = true)
    (further : ∀ char ∈ fraction, isDigit char = true)
    (same : Decimal.code ⟨digitsValue (whole ++ fraction), -fraction.length⟩ = decimal.code) :
    Legible (whole ++ pointed fraction) decimal := by
  have legible : Legible (whole ++ (pointed fraction ++ [])) decimal := by
    apply of_parts nonempty digits further rfl (by simp)
    rwa [Int.zero_sub]
  rwa [List.append_nil] at legible

theorem read (legible : Legible text decimal) (negative : Bool) :
    read? (if negative then '-' :: text else text) =
      some (floatOfMagnitude negative decimal.code) := by
  obtain ⟨first, rest, rfl, digit⟩ := legible.opens
  obtain ⟨read, found, same⟩ := legible.reads
  rw [read_of_digit digit, found, Option.map_some, Decimal.toFloat, same]

end Legible

namespace Decimal

open Numeral

theorem digits_of_zeros (places : Nat) :
    ∀ char ∈ List.replicate places '0', isDigit char = true := by
  intro char member
  rw [List.eq_of_mem_replicate member]
  decide

theorem digits_shifted (number places : Nat) :
    ∀ char ∈ Nat.toDigits 10 number ++ List.replicate places '0', isDigit char = true := by
  intro char member
  rcases List.mem_append.mp member with digit | zero
  · exact digit_of_mem_to_digits digit
  · exact digits_of_zeros places char zero

theorem shifted_ne_nil (number places : Nat) :
    Nat.toDigits 10 number ++ List.replicate places '0' ≠ [] :=
  List.append_ne_nil_of_left_ne_nil Nat.toDigits_ne_nil _

/-- The digits before the point and behind it in a text without an exponent. Zeros fill up to the
point; the first and the last digit are those of the decimal, but for a zero before the point. -/
structure Positional (decimal : Decimal) (whole fraction : List Char) : Prop where
  nonempty : whole ≠ []
  digits : ∀ char ∈ whole, isDigit char = true
  further : ∀ char ∈ fraction, isDigit char = true
  places : fraction.length = (-decimal.exponent).toNat
  number : digitsValue (whole ++ fraction) = decimal.digits * 10 ^ decimal.exponent.toNat
  first : whole = ['0'] ∨ whole.head? = (Nat.toDigits 10 decimal.digits).head?
  last : fraction = [] ∨ fraction.getLast? = (Nat.toDigits 10 decimal.digits).getLast?

theorem positional_parts (decimal : Decimal) :
    ∃ whole fraction, decimal.positional = whole ++ pointed fraction ∧
      Positional decimal whole fraction := by
  obtain ⟨number, exponent⟩ := decimal
  have proper : Nat.toDigits 10 number ≠ [] := Nat.toDigits_ne_nil
  have count := List.length_pos_iff.mpr proper
  unfold positional
  dsimp only
  split
  next whole =>
    refine ⟨_, [], (List.append_nil _).symm, shifted_ne_nil _ _, digits_shifted _ _,
      by simp, ?_, ?_, .inr ?_, .inl rfl⟩
    · dsimp only
      rw [List.length_nil]
      omega
    · rw [List.append_nil, digits_value_zeros]
    · exact List.head?_append_of_ne_nil _ proper
  next fractional =>
    have power : 10 ^ exponent.toNat = 1 := by
      rw [Int.toNat_of_nonpos (by omega), Nat.pow_zero]
    split
    next inside =>
      generalize cut : (Nat.toDigits 10 number).length - (-exponent).toNat = split
      have length : ((Nat.toDigits 10 number).drop split).length = (-exponent).toNat := by
        rw [List.length_drop]
        omega
      have fraction : (Nat.toDigits 10 number).drop split ≠ [] :=
        List.ne_nil_of_length_pos (by omega)
      refine ⟨_, (Nat.toDigits 10 number).drop split,
        by rw [pointed, if_neg fraction], ?_, ?_, ?_, length, ?_, .inr ?_, .inr ?_⟩
      · apply List.ne_nil_of_length_pos
        rw [List.length_take]
        omega
      · exact fun char member => digit_of_mem_to_digits (List.mem_of_mem_take member)
      · exact fun char member => digit_of_mem_to_digits (List.mem_of_mem_drop member)
      · rw [List.take_append_drop, digits_value_to_digits, power, Nat.mul_one]
      · rw [List.head?_take, if_neg (by omega)]
      · rw [List.getLast?_drop, if_neg (by omega)]
    next outside =>
      generalize filled : (-exponent).toNat - (Nat.toDigits 10 number).length = zeros
      have length :
          (List.replicate zeros '0' ++ Nat.toDigits 10 number).length = (-exponent).toNat := by
        rw [List.length_append, List.length_replicate]
        omega
      have fraction : List.replicate zeros '0' ++ Nat.toDigits 10 number ≠ [] :=
        List.ne_nil_of_length_pos (by omega)
      have padded : '0' :: '.' :: (List.replicate zeros '0' ++ Nat.toDigits 10 number) =
          ['0'] ++ pointed (List.replicate zeros '0' ++ Nat.toDigits 10 number) := by
        rw [pointed, if_neg fraction]
        rfl
      refine ⟨['0'], _, padded, by simp, digits_of_zeros 1, ?_, length, ?_, .inl rfl, .inr ?_⟩
      · intro char member
        rcases List.mem_append.mp member with zero | digit
        · exact digits_of_zeros zeros char zero
        · exact digit_of_mem_to_digits digit
      · rw [power, Nat.mul_one]
        exact (digits_value_leading_zeros zeros _).trans (digits_value_to_digits number)
      · rw [List.getLast?_append_of_ne_nil _ proper]

theorem positional_legible (decimal : Decimal) : Legible decimal.positional decimal := by
  obtain ⟨whole, fraction, text, parts⟩ := decimal.positional_parts
  rw [text]
  apply Legible.of_digits parts.nonempty parts.digits parts.further
  rw [parts.number, parts.places, code_shift]
  congr 2
  omega

def exponentText (power : Int) : List Char :=
  'e' :: (if power < 0 then '-' else '+') :: Nat.toDigits 10 power.natAbs

theorem exponent_written (power : Int) : exponent? (exponentText power) = some power := by
  have digits : (Nat.toDigits 10 power.natAbs).all isDigit = true :=
    List.all_eq_true.mpr fun char member => digit_of_mem_to_digits member
  have proper : (Nat.toDigits 10 power.natAbs).isEmpty = false :=
    List.isEmpty_eq_false_iff.mpr Nat.toDigits_ne_nil
  unfold exponentText exponent?
  by_cases negative : power < 0
  · simp [splitSign, negative, digits, proper, digits_value_to_digits, abs_of_neg negative]
  · simp [splitSign, negative, digits, proper, digits_value_to_digits,
      abs_of_nonneg (not_lt.mp negative)]

theorem numeric_exponent (power : Int) : ∀ char ∈ exponentText power, isNumeric char = true := by
  have sign : isNumeric (if power < 0 then '-' else '+') = true := by
    split <;> rfl
  intro char member
  rcases List.mem_cons.mp member with rfl | behind
  · rfl
  · rcases List.mem_cons.mp behind with rfl | digit
    · exact sign
    · exact numeric_of_digit (digit_of_mem_to_digits digit)

theorem scientific_legible (decimal : Decimal) : Legible decimal.scientific decimal := by
  obtain ⟨number, exponent⟩ := decimal
  have count : 0 < (Nat.toDigits 10 number).length := List.length_pos_iff.mpr Nat.toDigits_ne_nil
  have tail :
      (if (Nat.toDigits 10 number).length ≤ 1 then []
        else '.' :: (Nat.toDigits 10 number).drop 1) =
      pointed ((Nat.toDigits 10 number).drop 1) := by
    unfold pointed
    simp only [List.drop_eq_nil_iff]
  unfold scientific
  dsimp only
  rw [tail, List.append_assoc]
  apply Legible.of_parts
  · apply List.ne_nil_of_length_pos
    rw [List.length_take]
    omega
  · exact fun char member => digit_of_mem_to_digits (List.mem_of_mem_take member)
  · exact fun char member => digit_of_mem_to_digits (List.mem_of_mem_drop member)
  · exact exponent_written _
  · exact numeric_exponent _
  · rw [List.take_append_drop, digits_value_to_digits, List.length_drop]
    congr 2
    omega

theorem fractional_legible (decimal : Decimal) : Legible decimal.fractional decimal := by
  unfold fractional
  dsimp only
  split
  · split
    next whole =>
      obtain ⟨number, exponent⟩ := decimal
      have legible : Legible (Nat.toDigits 10 number ++ List.replicate exponent.toNat '0' ++
          pointed (List.replicate 1 '0')) ⟨number, exponent⟩ := by
        apply Legible.of_digits (shifted_ne_nil _ _) (digits_shifted _ _) (digits_of_zeros 1)
        rw [List.append_assoc, List.replicate_append_replicate, digits_value_zeros, code_shift]
        congr 2
        dsimp only at whole ⊢
        simp
        omega
      have layout : positional ⟨number, exponent⟩ =
          Nat.toDigits 10 number ++ List.replicate exponent.toNat '0' := if_pos whole
      rwa [layout]
    · exact positional_legible decimal
  · exact scientific_legible decimal

end Decimal

namespace NumberStyle

variable {style : NumberStyle} {value : Float}

theorem write_finite (finite : magnitude value < Magnitude.infinity) :
    (style.write value).toList =
      if isNegative value && (magnitude value ≠ 0 || style.signedZero) then
        '-' :: style.finite (Decimal.shortest style.tie (magnitude value))
      else style.finite (Decimal.shortest style.tie (magnitude value)) := by
  unfold write
  dsimp only
  rw [if_neg (by omega), if_neg (by omega)]
  split
  · rw [String.toList_ofList]
  · rw [String.toList_ofList]

/-- A finite double is read back from its text, but for the sign of a zero if that is not
written. -/
theorem read_write (legible : ∀ decimal, Legible (style.finite decimal) decimal)
    (finite : magnitude value < Magnitude.infinity) :
    Numeral.read? (style.write value).toList =
      some (floatOfMagnitude (isNegative value && (magnitude value ≠ 0 || style.signedZero))
        (magnitude value)) := by
  rw [write_finite finite, (legible _).read, Decimal.shortest_reads style.tie finite]

theorem numeric_write (legible : ∀ decimal, Legible (style.finite decimal) decimal)
    (finite : magnitude value < Magnitude.infinity) :
    ∀ char ∈ (style.write value).toList, isNumeric char = true := by
  have digits := (legible (Decimal.shortest style.tie (magnitude value))).numeric
  rw [write_finite finite]
  split
  · exact List.forall_mem_cons.mpr ⟨rfl, digits⟩
  · exact digits

end NumberStyle

end WhileLang
