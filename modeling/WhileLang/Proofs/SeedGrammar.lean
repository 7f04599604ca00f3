import WhileLang.Proofs.DumpedSeed

/-!
# The grammar of seeds

A seed is a name and a number with an `=` between them. The texts of numbers are those of a regular
expression, `Numeral.numberText`, and reading a number accepts these and no others
(`Numeral.read_is_some_iff`): the reader takes as many digits as there are, and nothing that may
follow a run of digits starts with one. What is no seed is refused for the first of three reasons
that holds: there is no `=`, no name in front of it, or no number behind it.
-/

namespace WhileLang

set_option autoImplicit false

namespace Numeral

open RegularExpression (char star)

section Grammar

def oneOf (chars : List Char) : RegularExpression Char :=
  chars.foldr (fun first others => char first + others) 0

/-- The letters of a word, each of them small or capital. -/
def anyCase (word : List Char) : RegularExpression Char :=
  word.foldr (fun letter others => oneOf [letter, letter.toUpper] * others) 1

def digit : RegularExpression Char :=
  oneOf ['0', '1', '2', '3', '4', '5', '6', '7', '8', '9']

def digits : RegularExpression Char :=
  digit * star digit

def sign : RegularExpression Char :=
  1 + oneOf ['+', '-']

/-- Digits, perhaps with a point in or behind them, or digits behind a point. -/
def mantissaPart : RegularExpression Char :=
  digits * (1 + char '.' * star digit) + char '.' * digits

def exponentPart : RegularExpression Char :=
  1 + oneOf ['e', 'E'] * (sign * digits)

def sizePart : RegularExpression Char :=
  anyCase "inf".toList + anyCase "infinity".toList + anyCase "nan".toList +
    mantissaPart * exponentPart

def numberText : RegularExpression Char :=
  sign * sizePart

end Grammar

variable {text : List Char}

theorem one_of_iff (chars : List Char) :
    (oneOf chars).rmatch text = true ↔ ∃ first ∈ chars, text = [first] := by
  induction chars with
  | nil => simp [oneOf]
  | cons first chars induction =>
    have split : (oneOf (first :: chars)).rmatch text = true ↔
        text = [first] ∨ (oneOf chars).rmatch text = true := by
      rw [← RegularExpression.char_rmatch_iff]
      exact RegularExpression.add_rmatch_iff _ _ _
    rw [split, induction]
    simp

theorem to_lower_eq_iff {letter : Char} (small : letter.toLower = letter) (other : Char) :
    other.toLower = letter ↔ other ∈ [letter, letter.toUpper] := by
  rw [List.mem_pair]
  constructor
  · rintro rfl
    by_cases capital : other.isUpper = true
    · have upper : ¬other.isLower = true := by simp [Char.not_isLower_of_isUpper capital]
      rw [Char.toUpper_toLower_eq_toUpper, Char.toUpper_eq_of_not_isLower upper]
      exact .inr rfl
    · rw [Char.toLower_eq_of_not_isUpper capital]
      exact .inl rfl
  · rintro (rfl | rfl)
    · exact small
    · rw [Char.toLower_toUpper_eq_toLower, small]

theorem any_case_iff {word : List Char} (small : ∀ letter ∈ word, letter.toLower = letter) :
    (anyCase word).rmatch text = true ↔ text.map Char.toLower = word := by
  induction word generalizing text with
  | nil =>
    rw [List.map_eq_nil_iff]
    exact RegularExpression.one_rmatch_iff text
  | cons letter word induction =>
    obtain ⟨smallLetter, smallRest⟩ := List.forall_mem_cons.mp small
    have split : (anyCase (letter :: word)).rmatch text = true ↔
        ∃ first rest, text = first ++ rest ∧ (oneOf [letter, letter.toUpper]).rmatch first = true ∧
          (anyCase word).rmatch rest = true :=
      RegularExpression.mul_rmatch_iff _ _ _
    rw [split]
    constructor
    · rintro ⟨first, rest, rfl, letters, others⟩
      obtain ⟨other, member, rfl⟩ := (one_of_iff _).mp letters
      rw [List.singleton_append, List.map_cons, (to_lower_eq_iff smallLetter other).mpr member,
        (induction smallRest).mp others]
    · intro lower
      obtain ⟨other, rest, rfl, same, others⟩ := List.map_eq_cons_iff.mp lower
      exact ⟨[other], rest, rfl,
        (one_of_iff _).mpr ⟨other, (to_lower_eq_iff smallLetter other).mp same, rfl⟩,
        (induction smallRest).mpr others⟩

theorem digit_iff_mem (first : Char) :
    isDigit first = true ↔ first ∈ ['0', '1', '2', '3', '4', '5', '6', '7', '8', '9'] := by
  constructor
  · intro taken
    obtain ⟨low, high⟩ := digit_range taken
    have same := Char.ofNat_toNat first
    generalize first.toNat = code at low high same
    rw [← same]
    interval_cases code <;> decide
  · intro member
    exact List.all_eq_true.mp (by decide) first member

theorem digit_iff : digit.rmatch text = true ↔ ∃ first, isDigit first = true ∧ text = [first] := by
  simp only [digit, one_of_iff, digit_iff_mem]

theorem star_digit_iff :
    (star digit).rmatch text = true ↔ ∀ first ∈ text, isDigit first = true := by
  rw [RegularExpression.star_rmatch_iff]
  constructor
  · rintro ⟨parts, rfl, all⟩ first member
    obtain ⟨part, inside, member⟩ := List.mem_flatten.mp member
    obtain ⟨other, taken, rfl⟩ := digit_iff.mp (all part inside).2
    rwa [List.mem_singleton.mp member]
  · intro all
    refine ⟨text.map fun first => [first], ?_, ?_⟩
    · rw [← List.flatMap_def, List.flatMap_singleton']
    · intro part member
      obtain ⟨first, inside, rfl⟩ := List.mem_map.mp member
      exact ⟨List.cons_ne_nil _ _, digit_iff.mpr ⟨first, all first inside, rfl⟩⟩

theorem digits_iff :
    digits.rmatch text = true ↔ text ≠ [] ∧ ∀ first ∈ text, isDigit first = true := by
  rw [digits, RegularExpression.mul_rmatch_iff]
  constructor
  · rintro ⟨front, rest, rfl, first, others⟩
    obtain ⟨char, taken, rfl⟩ := digit_iff.mp first
    exact ⟨List.cons_ne_nil _ _, List.forall_mem_cons.mpr ⟨taken, star_digit_iff.mp others⟩⟩
  · rintro ⟨nonempty, all⟩
    obtain ⟨first, rest, rfl⟩ := List.exists_cons_of_ne_nil nonempty
    obtain ⟨taken, others⟩ := List.forall_mem_cons.mp all
    exact ⟨[first], rest, rfl, digit_iff.mpr ⟨first, taken, rfl⟩, star_digit_iff.mpr others⟩

theorem sign_iff : sign.rmatch text = true ↔ text = [] ∨ text = ['+'] ∨ text = ['-'] := by
  rw [sign, RegularExpression.add_rmatch_iff, RegularExpression.one_rmatch_iff, one_of_iff]
  simp

def Unsigned (text : List Char) : Prop :=
  text.head? ≠ some '+' ∧ text.head? ≠ some '-'

theorem signed_iff {body : RegularExpression Char}
    (unsigned : ∀ rest, body.rmatch rest = true → Unsigned rest) :
    (sign * body).rmatch text = true ↔ body.rmatch (splitSign text).2 = true := by
  rw [RegularExpression.mul_rmatch_iff]
  constructor
  · rintro ⟨front, rest, rfl, marked, accepted⟩
    rcases sign_iff.mp marked with rfl | rfl | rfl
    · obtain ⟨plus, minus⟩ := unsigned rest accepted
      have same : splitSign rest = (false, rest) := by
        unfold splitSign
        split
        · exact absurd rfl minus
        · exact absurd rfl plus
        · rfl
      rwa [List.nil_append, same]
    · exact accepted
    · exact accepted
  · intro accepted
    unfold splitSign at accepted
    split at accepted
    · exact ⟨['-'], _, rfl, sign_iff.mpr (.inr (.inr rfl)), accepted⟩
    · exact ⟨['+'], _, rfl, sign_iff.mpr (.inr (.inl rfl)), accepted⟩
    · exact ⟨[], _, rfl, sign_iff.mpr (.inl rfl), accepted⟩

theorem unsigned_of_digit {first : Char} {rest : List Char}
    (opens : isDigit first = true ∨ first = '.') :
    Unsigned (first :: rest) := by
  rw [Unsigned, List.head?_cons]
  constructor
  · rintro ⟨⟩
    exact absurd opens (by decide)
  · rintro ⟨⟩
    exact absurd opens (by decide)

theorem unsigned_digits (taken : digits.rmatch text = true) : Unsigned text := by
  obtain ⟨nonempty, all⟩ := digits_iff.mp taken
  obtain ⟨first, rest, rfl⟩ := List.exists_cons_of_ne_nil nonempty
  exact unsigned_of_digit (.inl (all first List.mem_cons_self))

theorem exponent_is_some_iff :
    (exponent? text).isSome = true ↔ exponentPart.rmatch text = true := by
  rw [exponentPart, RegularExpression.add_rmatch_iff, RegularExpression.one_rmatch_iff,
    RegularExpression.mul_rmatch_iff]
  cases text with
  | nil => simp [exponent?]
  | cons mark rest =>
    have split :
        (∃ front behind, mark :: rest = front ++ behind ∧ (oneOf ['e', 'E']).rmatch front = true ∧
        (sign * digits).rmatch behind = true) ↔
          (mark = 'e' ∨ mark = 'E') ∧ digits.rmatch (splitSign rest).2 = true := by
      rw [← signed_iff fun _ => unsigned_digits]
      constructor
      · rintro ⟨front, behind, whole, marked, number⟩
        obtain ⟨other, member, rfl⟩ := (one_of_iff _).mp marked
        cases whole
        exact ⟨List.mem_pair.mp member, number⟩
      · rintro ⟨marked, number⟩
        exact ⟨[mark], rest, rfl, (one_of_iff _).mpr ⟨mark, List.mem_pair.mpr marked, rfl⟩, number⟩
    rw [split, digits_iff, exponent?]
    by_cases marked : mark = 'e' ∨ mark = 'E'
    · simp [marked]
    · simp [marked]

/-- Digits with a point between or around them: not both sides of the point are empty. -/
theorem mantissa_iff :
    mantissaPart.rmatch text = true ↔
      ∃ whole fraction, (∀ first ∈ whole, isDigit first = true) ∧
        (∀ first ∈ fraction, isDigit first = true) ∧
        (text = whole ++ '.' :: fraction ∧ (whole ≠ [] ∨ fraction ≠ []) ∨
          text = whole ∧ whole ≠ []) := by
  have point : ∀ front, (char '.').rmatch front = true ↔ front = ['.'] :=
    fun front => RegularExpression.char_rmatch_iff '.' front
  rw [mantissaPart, RegularExpression.add_rmatch_iff, RegularExpression.mul_rmatch_iff,
    RegularExpression.mul_rmatch_iff]
  constructor
  · rintro (⟨whole, behind, rfl, number, rest⟩ | ⟨front, fraction, rfl, dot, number⟩)
    · obtain ⟨nonempty, all⟩ := digits_iff.mp number
      rw [RegularExpression.add_rmatch_iff, RegularExpression.one_rmatch_iff,
        RegularExpression.mul_rmatch_iff] at rest
      rcases rest with rfl | ⟨front, fraction, rfl, dot, further⟩
      · exact ⟨whole, [], all, by simp, .inr ⟨List.append_nil whole, nonempty⟩⟩
      · rw [(point front).mp dot]
        exact ⟨whole, fraction, all, star_digit_iff.mp further, .inl ⟨rfl, .inl nonempty⟩⟩
    · obtain ⟨nonempty, all⟩ := digits_iff.mp number
      rw [(point front).mp dot]
      exact ⟨[], fraction, by simp, all, .inl ⟨rfl, .inr nonempty⟩⟩
  · rintro ⟨whole, fraction, all, further, ⟨rfl, proper⟩ | ⟨rfl, nonempty⟩⟩
    · by_cases none : whole = []
      · subst none
        have nonempty := proper.resolve_left (by simp)
        exact .inr ⟨['.'], fraction, rfl, (point _).mpr rfl, digits_iff.mpr ⟨nonempty, further⟩⟩
      · refine .inl ⟨whole, '.' :: fraction, rfl, digits_iff.mpr ⟨none, all⟩, ?_⟩
        rw [RegularExpression.add_rmatch_iff, RegularExpression.mul_rmatch_iff]
        exact .inr ⟨['.'], fraction, rfl, (point _).mpr rfl, star_digit_iff.mpr further⟩
    · refine .inl ⟨text, [], (List.append_nil text).symm, digits_iff.mpr ⟨nonempty, all⟩, ?_⟩
      rw [RegularExpression.add_rmatch_iff]
      exact .inl rfl

theorem decimal_parts (accepted : (decimal? text).isSome = true) :
    ∃ front rest, text = front ++ rest ∧ mantissaPart.rmatch front = true ∧
      (exponent? rest).isSome = true := by
  have taken : ∀ part : List Char, ∀ first ∈ part.takeWhile isDigit, isDigit first = true :=
    fun _ _ member => List.mem_takeWhile_imp member
  have split : ∀ part : List Char, part.takeWhile isDigit ++ part.dropWhile isDigit = part :=
    fun _ => List.takeWhile_append_dropWhile
  have digits := taken text
  have joined := split text
  unfold decimal? at accepted
  dsimp only at accepted
  generalize text.takeWhile isDigit = whole at *
  generalize text.dropWhile isDigit = behind at *
  subst joined
  by_cases point : behind.head? = some '.'
  · obtain ⟨tail, rfl⟩ := List.head?_eq_some_iff.mp point
    have further := taken tail
    have joinedTail := split tail
    rw [if_pos point, if_pos point, List.tail_cons] at accepted
    generalize tail.takeWhile isDigit = fraction at *
    generalize tail.dropWhile isDigit = rest at *
    subst joinedTail
    split at accepted
    next => cases accepted
    next proper =>
      have nonempty : whole ≠ [] ∨ fraction ≠ [] := by
        simpa [-not_and, not_and_or] using proper
      rw [Option.isSome_map] at accepted
      exact ⟨whole ++ '.' :: fraction, rest, by simp,
        mantissa_iff.mpr ⟨whole, fraction, digits, further, .inl ⟨rfl, nonempty⟩⟩, accepted⟩
  · rw [if_neg point, if_neg point] at accepted
    split at accepted
    next => cases accepted
    next proper =>
      have nonempty : whole ≠ [] := by simpa using proper
      rw [Option.isSome_map] at accepted
      exact ⟨whole, behind, rfl,
        mantissa_iff.mpr ⟨whole, [], digits, by simp, .inr ⟨rfl, nonempty⟩⟩, accepted⟩

theorem decimal_is_some_iff :
    (decimal? text).isSome = true ↔ (mantissaPart * exponentPart).rmatch text = true := by
  rw [RegularExpression.mul_rmatch_iff]
  simp only [← exponent_is_some_iff]
  constructor
  · exact decimal_parts
  · rintro ⟨front, rest, rfl, mantissa, accepted⟩
    obtain ⟨exponent, read⟩ := Option.isSome_iff_exists.mp accepted
    obtain ⟨whole, fraction, digits, further, ⟨rfl, proper⟩ | ⟨rfl, nonempty⟩⟩ :=
      mantissa_iff.mp mantissa
    · rw [List.append_assoc, List.cons_append, decimal_of_point proper digits further read]
      rfl
    · have plain := @decimal_of_parts _ [] _ _ nonempty digits (by simp) read
      rw [pointed, if_pos rfl, List.nil_append] at plain
      rw [plain]
      rfl

theorem special_is_some_iff :
    (special? text).isSome = true ↔
      (anyCase "inf".toList + anyCase "infinity".toList + anyCase "nan".toList).rmatch text =
        true := by
  have inf : (anyCase "inf".toList).rmatch text = true ↔ text.map Char.toLower = "inf".toList :=
    any_case_iff (by simp)
  have infinity : (anyCase "infinity".toList).rmatch text = true ↔
      text.map Char.toLower = "infinity".toList :=
    any_case_iff (by simp)
  have nan : (anyCase "nan".toList).rmatch text = true ↔ text.map Char.toLower = "nan".toList :=
    any_case_iff (by simp)
  rw [RegularExpression.add_rmatch_iff, RegularExpression.add_rmatch_iff, inf, infinity, nan,
    special?]
  generalize "inf".toList = short, "infinity".toList = long, "nan".toList = none
  by_cases infinite : text.map Char.toLower = short ∨ text.map Char.toLower = long
  · rw [if_pos (by simpa using infinite)]
    exact iff_of_true rfl (.inl infinite)
  · rw [if_neg (by simpa using infinite)]
    simp only [infinite, false_or]
    split
    next unordered => exact iff_of_true rfl unordered
    next ordered => exact iff_of_false Bool.false_ne_true ordered

theorem unsigned_special (accepted : (special? text).isSome = true) : Unsigned text := by
  have letters : ∀ mark rest, mark = '+' ∨ mark = '-' → special? (mark :: rest) = none := by
    rintro mark rest (rfl | rfl) <;> simp [special?]
  constructor
  · intro marked
    obtain ⟨rest, rfl⟩ := List.head?_eq_some_iff.mp marked
    rw [letters '+' rest (.inl rfl)] at accepted
    cases accepted
  · intro marked
    obtain ⟨rest, rfl⟩ := List.head?_eq_some_iff.mp marked
    rw [letters '-' rest (.inr rfl)] at accepted
    cases accepted

theorem unsigned_mantissa (accepted : mantissaPart.rmatch text = true) (rest : List Char) :
    Unsigned (text ++ rest) := by
  obtain ⟨whole, fraction, digits, _, parts⟩ := mantissa_iff.mp accepted
  cases whole with
  | nil =>
    rcases parts with ⟨rfl, _⟩ | ⟨_, nonempty⟩
    · exact unsigned_of_digit (.inr rfl)
    · exact absurd rfl nonempty
  | cons first whole =>
    have opens := digits first List.mem_cons_self
    rcases parts with ⟨rfl, _⟩ | ⟨rfl, _⟩
    · exact unsigned_of_digit (.inl opens)
    · exact unsigned_of_digit (.inl opens)

theorem unsigned_size (accepted : sizePart.rmatch text = true) : Unsigned text := by
  rw [sizePart, RegularExpression.add_rmatch_iff, ← special_is_some_iff,
    RegularExpression.mul_rmatch_iff] at accepted
  rcases accepted with word | ⟨front, rest, rfl, mantissa, _⟩
  · exact unsigned_special word
  · exact unsigned_mantissa mantissa rest

/-- Reading a number accepts the texts of numbers and no others. -/
theorem read_is_some_iff : (read? text).isSome = true ↔ numberText.rmatch text = true := by
  rw [numberText, signed_iff fun _ => unsigned_size, sizePart, RegularExpression.add_rmatch_iff,
    ← special_is_some_iff, ← decimal_is_some_iff, read?]
  dsimp only
  cases special? (splitSign text).2 with
  | some code => simp
  | none => simp

example : numberText.rmatch ['-', '1', '.', 'e', '+', '0', '5'] = true := by decide

example : numberText.rmatch ['.', 'e', '1'] = false := by decide

end Numeral

/-- The core of a text: white space stands around it and not at its ends. -/
def Trimmed (text core : List Char) : Prop :=
  Tight core ∧ ∃ left right, (∀ char ∈ left, char ∈ whiteSpace) ∧
    (∀ char ∈ right, char ∈ whiteSpace) ∧
    text = left ++ (core ++ right)

theorem trimmed_iff {text core : List Char} : Trimmed text core ↔ trim text = core := by
  constructor
  · rintro ⟨tight, left, right, before, behind, rfl⟩
    exact trim_of_parts before behind tight
  · rintro rfl
    have white : ∀ part : List Char, ∀ char ∈ part.takeWhile isWhiteSpace, char ∈ whiteSpace :=
      fun _ _ member => white_space_iff.mp (List.mem_takeWhile_imp member)
    refine ⟨tight_trim text, text.takeWhile isWhiteSpace,
      ((text.dropWhile isWhiteSpace).reverse.takeWhile isWhiteSpace).reverse, white text, ?_, ?_⟩
    · intro char member
      exact white _ char (List.mem_reverse.mp member)
    · rw [trim, ← List.reverse_append, List.takeWhile_append_dropWhile, List.reverse_reverse,
        List.takeWhile_append_dropWhile]

theorem trim_eq_nil_iff {text : List Char} : trim text = [] ↔ ∀ char ∈ text, char ∈ whiteSpace := by
  rw [← trimmed_iff]
  constructor
  · rintro ⟨_, left, right, before, behind, rfl⟩
    exact List.forall_mem_append.mpr ⟨before, behind⟩
  · intro white
    exact ⟨by simp [Tight], text, [], white, by simp, by simp⟩

/-- The argument is a seed for the variable of this name. -/
inductive SeedAccepted (argument : String) : String → Prop where
  | named {left right name number : List Char} (split : argument.toList = left ++ '=' :: right)
      (unequal : '=' ∉ left) (before : Trimmed left name) (proper : name ≠ [])
      (behind : Trimmed right number) (correct : Numeral.numberText.rmatch number = true) :
      SeedAccepted argument (String.ofList name)

/-- The argument is no seed, and this is what is said about it. -/
inductive SeedRefused (argument : String) : String → Prop where
  | undivided (absent : '=' ∉ argument.toList) :
      SeedRefused argument ("expected NAME=VALUE, got '" ++ argument ++ "'")
  | unnamed {left right : List Char} (split : argument.toList = left ++ '=' :: right)
      (unequal : '=' ∉ left) (blank : ∀ char ∈ left, char ∈ whiteSpace) :
      SeedRefused argument ("missing variable name in '" ++ argument ++ "'")
  | unreadable {left right number : List Char} (split : argument.toList = left ++ '=' :: right)
      (unequal : '=' ∉ left) (named : ¬∀ char ∈ left, char ∈ whiteSpace)
      (behind : Trimmed right number) (wrong : ¬Numeral.numberText.rmatch number = true) :
      SeedRefused argument ("'" ++ String.ofList number ++ "' is not a number")

section Arguments

variable {argument : String}

theorem read_seed_undivided (absent : '=' ∉ argument.toList) :
    readSeed argument = .error (.missingEquals argument) := by
  have nothing : argument.toList.dropWhile (· ≠ '=') = [] := by
    apply List.dropWhile_eq_nil_iff.mpr
    intro char member
    apply decide_eq_true
    rintro rfl
    exact absent member
  unfold readSeed
  dsimp only
  rw [nothing]

/-- Every argument is a seed or is refused, for the reason that comes first. -/
theorem read_seed_cases (argument : String) :
    (∃ name value, readSeed argument = .ok (name, value) ∧ SeedAccepted argument name) ∨
      ∃ fault, readSeed argument = .error fault ∧ SeedRefused argument fault.message := by
  by_cases divided : '=' ∈ argument.toList
  · obtain ⟨left, right, split, unequal⟩ := List.eq_append_cons_of_mem divided
    have read := read_seed_split split unequal
    by_cases blank : trim left = []
    · rw [if_pos blank] at read
      exact .inr ⟨_, read, .unnamed split unequal (trim_eq_nil_iff.mp blank)⟩
    · rw [if_neg blank] at read
      have behind : Trimmed right (trim right) := trimmed_iff.mpr rfl
      cases number : Numeral.read? (trim right) with
      | none =>
        have wrong : ¬Numeral.numberText.rmatch (trim right) = true := by
          rw [← Numeral.read_is_some_iff, number]
          exact Bool.false_ne_true
        rw [number] at read
        exact .inr ⟨_, read, .unreadable split unequal (mt trim_eq_nil_iff.mpr blank) behind wrong⟩
      | some value =>
        have accepted : Numeral.numberText.rmatch (trim right) = true := by
          rw [← Numeral.read_is_some_iff, number]
          rfl
        rw [number] at read
        exact .inl ⟨_, value, read, .named split unequal
          (trimmed_iff.mpr rfl) blank behind accepted⟩
  · exact .inr ⟨_, read_seed_undivided divided, .undivided divided⟩

theorem SeedAccepted.read {name : String} (accepted : SeedAccepted argument name) :
    ∃ value, readSeed argument = .ok (name, value) := by
  cases accepted with
  | named split unequal before proper behind correct =>
    rw [← trimmed_iff.mp before] at proper ⊢
    rw [← trimmed_iff.mp behind, ← Numeral.read_is_some_iff] at correct
    obtain ⟨value, number⟩ := Option.isSome_iff_exists.mp correct
    exact ⟨value, read_seed_of_split split unequal proper number⟩

theorem SeedRefused.read {message : String} (refused : SeedRefused argument message) :
    ∃ fault, readSeed argument = .error fault ∧ fault.message = message := by
  cases refused with
  | undivided absent => exact ⟨_, read_seed_undivided absent, rfl⟩
  | unnamed split unequal blank =>
    have read := read_seed_split split unequal
    rw [if_pos (trim_eq_nil_iff.mpr blank)] at read
    exact ⟨_, read, rfl⟩
  | unreadable split unequal named behind wrong =>
    have read := read_seed_split split unequal
    rw [if_neg (mt trim_eq_nil_iff.mp named), trimmed_iff.mp behind] at read
    rw [← Numeral.read_is_some_iff, Option.not_isSome_iff_eq_none] at wrong
    rw [wrong] at read
    exact ⟨_, read, rfl⟩

end Arguments

/-- An argument is read as a seed exactly if it has the form of one, and else it is refused with the
message that its form calls for. -/
theorem read_seed_accepts_grammar (argument : String) :
    (∀ name, (∃ value, readSeed argument = .ok (name, value)) ↔ SeedAccepted argument name) ∧
      ∀ message, (∃ fault, readSeed argument = .error fault ∧ fault.message = message) ↔
        SeedRefused argument message := by
  have cases := read_seed_cases argument
  constructor
  · intro name
    refine ⟨fun ⟨value, read⟩ => ?_, SeedAccepted.read⟩
    rw [read] at cases
    rcases cases with ⟨_, _, same, accepted⟩ | ⟨_, failed, _⟩
    · cases same
      exact accepted
    · cases failed
  · intro message
    refine ⟨fun ⟨fault, read, worded⟩ => ?_, SeedRefused.read⟩
    rw [read] at cases
    rcases cases with ⟨_, _, succeeded, _⟩ | ⟨_, same, refused⟩
    · cases succeeded
    · cases same
      exact worded ▸ refused

end WhileLang
