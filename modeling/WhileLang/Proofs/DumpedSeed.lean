import WhileLang.Effect
import WhileLang.Proofs.ReadBack

/-!
# Dumped variables as seeds

The line that shows a variable has the form of a seed, `name = value`. Reading it as a seed gives
back the name, if white space at its ends or an `=` in it does not get in the way, and the value
with all its bits. Only the sign of a zero is lost, since it is not printed.
-/

namespace WhileLang

set_option autoImplicit false

/-- The characters with the Unicode property `White_Space`. -/
def whiteSpace : List Char :=
  ['\t', '\n', '\x0b', '\x0c', '\r', ' ', '\u0085', '\u00a0', '\u1680', '\u2000', '\u2001',
    '\u2002', '\u2003', '\u2004', '\u2005', '\u2006', '\u2007', '\u2008', '\u2009', '\u200a',
    '\u2028', '\u2029', '\u202f', '\u205f', '\u3000']

theorem white_space_iff {char : Char} : isWhiteSpace char = true ↔ char ∈ whiteSpace := by
  constructor
  · intro white
    have code : char.toNat ∈ whiteSpace.map Char.toNat := by
      simp only [isWhiteSpace, Bool.or_eq_true, Bool.and_eq_true, decide_eq_true_eq] at white
      change char.toNat ∈ [0x9, 0xa, 0xb, 0xc, 0xd, 0x20, 0x85, 0xa0, 0x1680, 0x2000, 0x2001,
        0x2002, 0x2003, 0x2004, 0x2005, 0x2006, 0x2007, 0x2008, 0x2009, 0x200a, 0x2028, 0x2029,
        0x202f, 0x205f, 0x3000]
      simp only [List.mem_cons, List.not_mem_nil, or_false]
      omega
    obtain ⟨other, listed, same⟩ := List.mem_map.mp code
    rwa [← Char.toNat_inj.mp same]
  · exact List.all_eq_true.mp (by decide) char

theorem not_white_space_iff {char : Char} : isWhiteSpace char = false ↔ char ∉ whiteSpace := by
  rw [← white_space_iff, Bool.not_eq_true]

def Tight (text : List Char) : Prop :=
  (∀ char ∈ text.head?, char ∉ whiteSpace) ∧ ∀ char ∈ text.getLast?, char ∉ whiteSpace

theorem tight_iff {text : List Char} :
    Tight text ↔ (∀ char ∈ text.head?, isWhiteSpace char = false) ∧
      ∀ char ∈ text.getLast?, isWhiteSpace char = false := by
  simp only [Tight, not_white_space_iff]

theorem trim_of_parts {left text right : List Char} (before : ∀ char ∈ left, char ∈ whiteSpace)
    (behind : ∀ char ∈ right, char ∈ whiteSpace) (tight : Tight text) :
    trim (left ++ (text ++ right)) = text := by
  simp only [← white_space_iff] at before behind
  rw [tight_iff] at tight
  have backwards : ∀ char ∈ right.reverse, isWhiteSpace char = true :=
    fun char member => behind char (List.mem_reverse.mp member)
  have ends : ∀ char ∈ text.reverse.head?, isWhiteSpace char = false := by
    rw [List.head?_reverse]
    exact tight.2
  unfold trim
  cases text with
  | nil =>
    have nothing : (left ++ ([] ++ right)).dropWhile isWhiteSpace = [] := by
      rw [List.dropWhile_append_of_pos before]
      exact List.dropWhile_eq_nil_iff.mpr behind
    rw [nothing]
    rfl
  | cons first rest =>
    have front : ∀ char ∈ (first :: rest ++ right).head?, isWhiteSpace char = false := tight.1
    rw [drop_while_append before front, List.reverse_append, drop_while_append backwards ends,
      List.reverse_reverse]

theorem trim_front (text : List Char) : trim text <+: text.dropWhile isWhiteSpace := by
  rw [← List.reverse_suffix, trim, List.reverse_reverse]
  exact List.dropWhile_suffix _

theorem mem_of_mem_trim {text : List Char} {char : Char} (member : char ∈ trim text) :
    char ∈ text :=
  (List.dropWhile_suffix _).mem ((trim_front text).mem member)

theorem head_drop_while {accept : Char → Bool} {text : List Char} :
    ∀ char ∈ (text.dropWhile accept).head?, accept char = false := by
  intro char first
  have found := List.head?_dropWhile_not accept text
  rw [Option.mem_def.mp first] at found
  exact found

theorem tight_trim (text : List Char) : Tight (trim text) := by
  rw [tight_iff]
  constructor
  · intro char first
    obtain ⟨rest, split⟩ := trim_front text
    have starts : char ∈ (text.dropWhile isWhiteSpace).head? := by
      rw [← split]
      exact List.mem_head?_append_of_mem_head? first
    exact head_drop_while char starts
  · rw [trim, List.getLast?_reverse]
    exact head_drop_while

/-- A seed with this name is read as such. -/
structure IsSeedName (name : String) : Prop where
  proper : name.toList ≠ []
  unequal : '=' ∉ name.toList
  tight : Tight name.toList

theorem read_seed_split {argument : String} {left right : List Char}
    (split : argument.toList = left ++ '=' :: right) (unequal : '=' ∉ left) :
    readSeed argument =
      if trim left = [] then .error (.missingName argument)
      else (Numeral.read? (trim right)).elim (.error (.invalidNumber (String.ofList (trim right))))
        fun number => .ok (String.ofList (trim left), number) := by
  have before : ∀ char ∈ left, decide (char ≠ '=') = true := by
    intro char member
    apply decide_eq_true
    rintro rfl
    exact unequal member
  have stop : ∀ char ∈ ('=' :: right).head?, decide (char ≠ '=') = false := by
    intro char first
    cases first
    rfl
  have taken : (left ++ '=' :: right).takeWhile (· ≠ '=') = left :=
    (take_while_append_iff _ left _).mpr ⟨(take_while_eq_self_iff _ left).mpr before, stop⟩
  unfold readSeed
  dsimp only
  rw [split, taken, drop_while_append before stop]
  dsimp only
  simp only [List.isEmpty_iff]
  congr 1
  cases Numeral.read? (trim right) with
  | none => rfl
  | some number => rfl

theorem read_seed_of_split {argument : String} {left right : List Char} {number : Float}
    (split : argument.toList = left ++ '=' :: right) (unequal : '=' ∉ left) (named : trim left ≠ [])
    (read : Numeral.read? (trim right) = some number) :
    readSeed argument = .ok (String.ofList (trim left), number) := by
  rw [read_seed_split split unequal, if_neg named, read]
  rfl

/-- Every name that is read off a seed can be dumped and read again. -/
theorem seed_name_of_read {argument name : String} {value : Float}
    (read : readSeed argument = .ok (name, value)) : IsSeedName name := by
  unfold readSeed at read
  dsimp only at read
  split at read
  next => cases read
  next =>
    split at read
    next => cases read
    next proper =>
      split at read
      next =>
        cases read
        constructor
        · rw [String.toList_ofList]
          exact fun nothing => proper (List.isEmpty_iff.mpr nothing)
        · rw [String.toList_ofList]
          intro member
          have taken := List.mem_takeWhile_imp (mem_of_mem_trim member)
          exact absurd taken (by decide)
        · rw [String.toList_ofList]
          exact tight_trim _
      next => cases read

theorem not_white_space_of_range {char : Char} (low : 0x20 < char.toNat)
    (high : char.toNat < 0x7f) :
    char ∉ whiteSpace := by
  rw [← not_white_space_iff]
  simp only [isWhiteSpace, Bool.or_eq_false_iff, Bool.and_eq_false_iff, decide_eq_false_iff_not]
  omega

theorem tight_of_range {text : List Char}
    (range : ∀ char ∈ text, 0x20 < char.toNat ∧ char.toNat < 0x7f) :
    Tight text := by
  constructor
  · intro char first
    have bounds := range char (List.mem_of_mem_head? first)
    exact not_white_space_of_range bounds.1 bounds.2
  · intro char last
    have bounds := range char (List.mem_of_mem_getLast? last)
    exact not_white_space_of_range bounds.1 bounds.2

theorem name_part_range {char : Char} (part : isNamePart char = true) :
    0x20 < char.toNat ∧ char.toNat < 0x7f := by
  simp only [isNamePart, isNameStart, Bool.or_eq_true, Bool.and_eq_true, decide_eq_true_eq] at part
  rcases part with ((rfl | lower) | upper) | digit
  · decide
  · have range : 97 ≤ char.toNat ∧ char.toNat ≤ 122 := lower
    omega
  · have range : 65 ≤ char.toNat ∧ char.toNat ≤ 90 := upper
    omega
  · have range := digit_range digit
    omega

theorem numeric_range {char : Char} (numeric : isNumeric char = true) :
    0x20 < char.toNat ∧ char.toNat < 0x7f := by
  rcases (Bool.or_eq_true _ _).mp numeric with digit | mark
  · have range := digit_range digit
    omega
  · simp only [List.contains_cons, List.contains_nil, Bool.or_eq_true, beq_iff_eq,
      Bool.or_false] at mark
    rcases mark with rfl | rfl | rfl | rfl <;> decide

theorem seed_name_of_name {name : String} (named : IsName name) : IsSeedName name := by
  obtain ⟨⟨first, rest, split, starts, parts⟩, _⟩ := (is_name_iff name).mp named
  have all : ∀ char ∈ name.toList, isNamePart char = true := by
    rw [split]
    exact List.forall_mem_cons.mpr ⟨by rw [isNamePart, starts, Bool.true_or], parts⟩
  constructor
  · rw [split]
    exact List.cons_ne_nil _ _
  · intro member
    exact absurd (all '=' member) (by decide)
  · apply tight_of_range
    intro char member
    exact name_part_range (all char member)

/-- What comes back of a value: all its bits, except that a zero has lost its sign and that one
value which is no number may stand for another. -/
def Restored (value back : Float) : Prop :=
  if value.isNaN then back.isNaN = true
  else if value.toBits = 0x8000000000000000 then back.toBits = 0
  else back.toBits = value.toBits

theorem restored_of_magnitude {value : Float} (number : magnitude value ≤ Magnitude.infinity) :
    Restored value
      (floatOfMagnitude (isNegative value && decide (magnitude value ≠ 0)) (magnitude value)) := by
  have ordered : ¬value.isNaN = true := by
    rw [Encoding.is_nan_iff]
    omega
  have sign : Nat.pow 2 63 = 2 ^ 63 := rfl
  have size : magnitude value = value.toBits.toNat % 2 ^ 63 := rfl
  have range := value.toBits.toNat_lt
  rw [Restored, if_neg ordered]
  by_cases zero : magnitude value = 0
  · have cleared : (floatOfMagnitude false 0).toBits = 0 := rfl
    rw [zero, decide_eq_false (by simp), Bool.and_false, cleared]
    split
    next => rfl
    next unsigned =>
      have other : value.toBits.toNat ≠ 2 ^ 63 := fun same => unsigned (UInt64.toNat_inj.mp same)
      apply UInt64.toNat_inj.mp
      change 0 = value.toBits.toNat
      omega
  · have whole := eq_of_magnitude number
    rw [decide_eq_true zero, Bool.and_true, ← whole, if_neg]
    intro negativeZero
    rw [negativeZero] at size
    exact zero size

theorem print_number_infinite {value : Float} (infinite : magnitude value = Magnitude.infinity) :
    printNumber value = if isNegative value then "-Infinity" else "Infinity" := by
  rw [printNumber, NumberStyle.write]
  dsimp only
  rw [if_neg (by omega), if_pos infinite]
  rfl

theorem print_number_nan {value : Float} (unordered : Magnitude.infinity < magnitude value) :
    printNumber value = "NaN" := by
  rw [printNumber, NumberStyle.write]
  exact if_pos unordered

theorem read_infinite (negative : Bool) :
    Numeral.read? (if negative then "-Infinity" else "Infinity").toList =
      some (floatOfMagnitude negative Magnitude.infinity) := by
  cases negative <;> rfl

theorem read_printed (value : Float) :
    ∃ back, Numeral.read? (printNumber value).toList = some back ∧ Restored value back := by
  rcases Nat.lt_trichotomy (magnitude value) Magnitude.infinity with finite | infinite | unordered
  · refine ⟨_, ?_, restored_of_magnitude (Nat.le_of_lt finite)⟩
    rw [printNumber, NumberStyle.read_write Decimal.positional_legible finite]
    simp [NumberStyle.printed]
  · refine ⟨_, ?_, restored_of_magnitude (Nat.le_of_eq infinite)⟩
    have large : magnitude value ≠ 0 := by
      rw [infinite]
      decide
    rw [print_number_infinite infinite, read_infinite, decide_eq_true large, Bool.and_true,
      infinite]
  · refine ⟨floatOfMagnitude false (Magnitude.infinity + Magnitude.stride / 2), ?_, ?_⟩
    · rw [print_number_nan unordered]
      rfl
    · rw [Restored, if_pos ((Encoding.is_nan_iff value).mpr unordered)]
      decide

theorem tight_printed (value : Float) : Tight (printNumber value).toList := by
  apply tight_of_range
  rcases Nat.lt_trichotomy (magnitude value) Magnitude.infinity with finite | infinite | unordered
  · intro char member
    exact numeric_range (NumberStyle.numeric_write Decimal.positional_legible finite char member)
  · rw [print_number_infinite infinite]
    cases isNegative value <;> simp
  · rw [print_number_nan unordered]
    simp

namespace Outcome

theorem dump_line_to_list (name : String) (value : Float) :
    (dumpLine (name, value)).toList =
      (name.toList ++ [' ']) ++ '=' :: ([' '] ++ (printNumber value).toList) := by
  simp [dumpLine]

theorem read_dump_line {name : String} (seedName : IsSeedName name) (value : Float) :
    ∃ back, readSeed (dumpLine (name, value)) = .ok (name, back) ∧ Restored value back := by
  obtain ⟨back, read, restored⟩ := read_printed value
  have white : ∀ char ∈ [' '], char ∈ whiteSpace := by simp [whiteSpace]
  have unequal : '=' ∉ name.toList ++ [' '] := by simp [seedName.unequal]
  have nameBack : trim (name.toList ++ [' ']) = name.toList :=
    @trim_of_parts [] name.toList [' '] (by simp) white seedName.tight
  have valueBack : trim ([' '] ++ (printNumber value).toList) = (printNumber value).toList := by
    have trimmed :=
      @trim_of_parts [' '] (printNumber value).toList [] white (by simp) (tight_printed value)
    rwa [List.append_nil] at trimmed
  rw [← valueBack] at read
  have named : trim (name.toList ++ [' ']) ≠ [] := by
    rw [nameBack]
    exact seedName.proper
  have seed := read_seed_of_split (dump_line_to_list name value) unequal named read
  rw [nameBack, String.ofList_toList] at seed
  exact ⟨back, seed, restored⟩

/-- The line that shows a variable is a seed for it. The name may be any that does not hide where it
ends; identifiers and the names of seeds are such. -/
theorem dumped_variable_is_seed :
    (∀ name value, IsSeedName name →
      ∃ back, readSeed (dumpLine (name, value)) = .ok (name, back) ∧ Restored value back) ∧
      (∀ name, IsName name → IsSeedName name) ∧
      ∀ argument name value, readSeed argument = .ok (name, value) → IsSeedName name := by
  refine ⟨?_, ?_, ?_⟩
  · intro name value seedName
    exact read_dump_line seedName value
  · intro name named
    exact seed_name_of_name named
  · intro argument name value read
    exact seed_name_of_read read

/-- The smallest double, below zero, under a name with white space inside. -/
theorem dumped_variable_is_seed_tiny :
    ∃ back, readSeed (dumpLine ("at most", floatOfMagnitude true 1)) = .ok ("at most", back) ∧
      back.toBits = 0x8000000000000001 := by
  have seedName : IsSeedName "at most" := by
    refine ⟨by simp, by simp, ?_⟩
    simp [Tight, whiteSpace]
  obtain ⟨back, read, restored⟩ := dumped_variable_is_seed.1 _ (floatOfMagnitude true 1) seedName
  exact ⟨back, read, restored⟩

end Outcome

end WhileLang
