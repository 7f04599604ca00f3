import WhileLang.Proofs.Feed

/-!
# Lexemes in context

A lexeme ends before the first character that does not continue it. What stands behind a lexeme
therefore matters by its first character alone, and a text may be changed behind a token without
changing the token.
-/

namespace WhileLang

set_option autoImplicit false

theorem digit_eq (char : Char) : isDigit char = char.isDigit := rfl

theorem name_start_eq (char : Char) : isNameStart char = (char.isAlpha || char = '_') := by
  have upper : char.isUpper = ('A' ≤ char && char ≤ 'Z') := Bool.decide_and _ _
  have lower : char.isLower = ('a' ≤ char && char ≤ 'z') := rfl
  rw [isNameStart, Char.isAlpha, upper, lower, Bool.or_assoc, Bool.or_comm, Bool.or_comm (_ && _)]

theorem name_part_eq (char : Char) : isNamePart char = (char.isAlphanum || char = '_') := by
  rw [isNamePart, name_start_eq, digit_eq, Char.isAlphanum, Bool.or_right_comm]

def separators : List Char :=
  [' ', '\t', '\n', '\r']

theorem blank_iff {char : Char} : isBlank char = true ↔ char ∈ separators := by
  simp [isBlank, separators, or_assoc]

theorem visible_iff {char : Char} : isBlank char = false ↔ char ∉ separators := by
  rw [← blank_iff, Bool.not_eq_true]

/-- The character would lengthen a lexeme that reads `text` so far. -/
def continues (text : List Char) (char : Char) : Bool :=
  match text with
  | [] => false
  | first :: rest =>
    if isNameStart first then isNamePart char
    else if isDigit first then isDigit char
    else rest.isEmpty && isOperatorPair first char

/-- Nothing at the front of `rest` would lengthen the lexeme `text`. -/
def Parted (text rest : List Char) : Prop :=
  ∀ char ∈ rest.head?, continues text char = false

theorem take_while_append_iff (accept : Char → Bool) (left right : List Char) :
    (left ++ right).takeWhile accept = left ↔
      left.takeWhile accept = left ∧ ∀ char ∈ right.head?, accept char = false := by
  induction left with
  | nil =>
    cases right with
    | nil => simp
    | cons first rest => simp [List.takeWhile_cons]
  | cons first left induction =>
    by_cases accepted : accept first = true
    · simp [accepted, induction]
    · simp [accepted]

theorem operator_start_of_pair {first second : Char} (pair : isOperatorPair first second = true) :
    isOperatorStart first = true := by
  simp only [isOperatorPair, Bool.or_eq_true, Bool.and_eq_true, decide_eq_true_eq] at pair
  rcases pair with (⟨_, ((rfl | rfl) | rfl) | rfl⟩ | ⟨rfl, _⟩) | ⟨rfl, _⟩ <;> decide

namespace Lexeme

variable {kind : TokenKind} {text rest source : List Char}

theorem operator_append_iff (first : Char) (more : List Char) :
    operatorLexeme first (more ++ rest) = .token kind (first :: more) ↔
      operatorLexeme first more = .token kind (first :: more) ∧
        ∀ char ∈ rest.head?, (more.isEmpty && isOperatorPair first char) = false := by
  cases more with
  | nil =>
    cases rest with
    | nil => simp
    | cons second rest =>
      simp only [operatorLexeme, List.nil_append, List.head?_cons, List.head?_nil]
      grind
  | cons second more => simp [operatorLexeme]

theorem run_append_iff (label : List Char → TokenKind) (accept : Char → Bool) (text : List Char) :
    Lexeme.token (label ((text ++ rest).takeWhile accept)) ((text ++ rest).takeWhile accept) =
        .token kind text ↔
      Lexeme.token (label (text.takeWhile accept)) (text.takeWhile accept) = .token kind text ∧
        ∀ char ∈ rest.head?, accept char = false := by
  simp only [Lexeme.token.injEq]
  constructor
  · rintro ⟨sameKind, whole⟩
    obtain ⟨alone, parted⟩ := (take_while_append_iff accept text rest).mp whole
    rw [whole] at sameKind
    rw [alone]
    exact ⟨⟨sameKind, rfl⟩, parted⟩
  · rintro ⟨⟨sameKind, alone⟩, parted⟩
    have whole := (take_while_append_iff accept text rest).mpr ⟨alone, parted⟩
    rw [alone] at sameKind
    rw [whole]
    exact ⟨sameKind, rfl⟩

/-- A text is the lexeme at the front of a longer one exactly if it is a lexeme and stands apart
from what follows. -/
theorem append_iff :
    lexeme (text ++ rest) = .token kind text ↔
      lexeme text = .token kind text ∧ Parted text rest := by
  cases text with
  | nil =>
    have empty : ∀ other, lexeme other ≠ .token kind [] :=
      fun other found => Scanner.lexeme_text_ne_nil found rfl
    simp [empty]
  | cons first more =>
    unfold Parted
    simp only [lexeme, continues, List.cons_append]
    by_cases name : isNameStart first = true
    · simp only [name, if_true]
      exact run_append_iff nameKind isNamePart (first :: more)
    · by_cases digit : isDigit first = true
      · simp only [name, digit, if_true]
        exact run_append_iff (fun _ => .numeric) isDigit (first :: more)
      · by_cases operator : isOperatorStart first = true
        · simp only [name, digit, operator, if_true]
          exact operator_append_iff first more
        · have unpaired : ∀ char, isOperatorPair first char = false :=
            fun char => Bool.eq_false_iff.mpr fun pair => operator (operator_start_of_pair pair)
          simp [name, digit, operator, unpaired]

theorem operator_prefix {first : Char} (found : operatorLexeme first rest = .token kind text) :
    text <+: first :: rest := by
  cases rest with
  | nil =>
    simp only [operatorLexeme, List.head?_nil] at found
    split at found
    · cases found
    · cases found
      exact List.prefix_refl _
  | cons second rest =>
    simp only [operatorLexeme, List.head?_cons] at found
    split at found
    · cases found
      exact ⟨rest, rfl⟩
    · split at found
      · cases found
      · cases found
        exact ⟨second :: rest, rfl⟩

theorem eq_append (found : lexeme source = .token kind text) : ∃ rest, source = text ++ rest := by
  suffices leading : text <+: source by
    obtain ⟨rest, same⟩ := leading
    exact ⟨rest, same.symm⟩
  cases source with
  | nil => simp [lexeme] at found
  | cons first others =>
    simp only [lexeme] at found
    split at found
    · cases found
      exact List.takeWhile_prefix _
    · split at found
      · cases found
        exact List.takeWhile_prefix _
      · split at found
        · exact operator_prefix found
        · cases found
          exact ⟨others, rfl⟩

theorem kind_ne_end_of_file (found : lexeme source = .token kind text) : kind ≠ .endOfFile := by
  cases source with
  | nil => simp [lexeme] at found
  | cons first others =>
    unfold lexeme operatorLexeme nameKind at found
    grind

end Lexeme

/-- The word is a visible lexeme of its own kind, so that a text can show it. -/
def Word.Written (word : Word) : Prop :=
  lexeme word.text.toList = .token word.kind word.text.toList ∧
    ∀ char ∈ word.text.toList.head?, isBlank char = false

-- The second part looks at one character; left to itself, the search may try all that there are.
instance (word : Word) : Decidable word.Written :=
  @instDecidableAnd _ _ inferInstance (Option.decidableForallMem _)

def Word.at (word : Word) (place : Place) : Token :=
  ⟨word.kind, some word.text, place.line, place.column⟩

@[simp] theorem Word.word_at (word : Word) (place : Place) : (word.at place).word = word := rfl

theorem Word.Written.unfinished {word : Word} (written : word.Written) : word.kind ≠ .endOfFile :=
  Lexeme.kind_ne_end_of_file written.1

theorem Word.Written.text_ne_nil {word : Word} (written : word.Written) : word.text.toList ≠ [] :=
  Scanner.lexeme_text_ne_nil written.1

/-- A letter or underscore, letters, digits or underscores behind it, and no keyword. -/
def IsName (text : String) : Prop :=
  (∃ first rest, text.toList = first :: rest ∧ (first.isAlpha = true ∨ first = '_') ∧
    ∀ char ∈ rest, char.isAlphanum = true ∨ char = '_') ∧ text ∉ keywords

theorem is_name_iff (text : String) :
    IsName text ↔ (∃ first rest, text.toList = first :: rest ∧ isNameStart first = true ∧
      ∀ char ∈ rest, isNamePart char = true) ∧ text ∉ keywords := by
  simp only [IsName, name_start_eq, name_part_eq, Bool.or_eq_true, decide_eq_true_eq]

theorem take_while_eq_self_iff (accept : Char → Bool) (text : List Char) :
    text.takeWhile accept = text ↔ ∀ char ∈ text, accept char = true := by
  constructor
  · intro whole char member
    rw [← whole] at member
    exact List.all_eq_true.mp List.all_takeWhile char member
  · intro all
    have taken : (text ++ []).takeWhile accept = text ++ [].takeWhile accept :=
      List.takeWhile_append_of_pos all
    simpa using taken

theorem visible_of_name_start {char : Char} (starts : isNameStart char = true) :
    isBlank char = false := by
  rw [Bool.eq_false_iff]
  intro blank
  simp only [isBlank, Bool.or_eq_true, decide_eq_true_eq] at blank
  rcases blank with ((rfl | rfl) | rfl) | rfl <;> simp [isNameStart] at starts

theorem visible_of_digit {char : Char} (digit : isDigit char = true) : isBlank char = false := by
  rw [Bool.eq_false_iff]
  intro blank
  simp only [isBlank, Bool.or_eq_true, decide_eq_true_eq] at blank
  rcases blank with ((rfl | rfl) | rfl) | rfl <;> simp [isDigit] at digit

theorem not_name_start_of_digit {char : Char} (digit : isDigit char = true) :
    isNameStart char = false := by
  rw [Bool.eq_false_iff]
  intro starts
  simp only [isDigit, Bool.and_eq_true, decide_eq_true_eq] at digit
  simp only [isNameStart, Bool.or_eq_true, Bool.and_eq_true, decide_eq_true_eq] at starts
  rcases starts with (rfl | ⟨low, _⟩) | ⟨low, _⟩
  · exact absurd digit.2 (by decide)
  · exact absurd (Char.le_trans low digit.2) (by decide)
  · exact absurd (Char.le_trans low digit.2) (by decide)

theorem name_kind_iff (text : String) : nameKind text.toList = .identifier ↔ text ∉ keywords := by
  rw [nameKind, String.ofList_toList]
  by_cases listed : text ∈ keywords <;> simp [listed]

theorem written_name_iff (text : String) : (Word.name text).Written ↔ IsName text := by
  have kinds := name_kind_iff text
  rw [is_name_iff]
  unfold Word.Written Word.name
  dsimp only
  generalize text.toList = characters at *
  cases characters with
  | nil => simp [lexeme]
  | cons first rest =>
    by_cases starts : isNameStart first = true
    · have part : isNamePart first = true := by simp [isNamePart, starts]
      have run := take_while_eq_self_iff isNamePart (first :: rest)
      rw [List.forall_mem_cons] at run
      simp only [lexeme, starts, if_true, Lexeme.token.injEq, List.head?_cons]
      constructor
      · rintro ⟨⟨kind, whole⟩, _⟩
        rw [whole] at kind
        exact ⟨⟨first, rest, rfl, starts, (run.mp whole).2⟩, kinds.mp kind⟩
      · rintro ⟨⟨_, _, same, _, parts⟩, free⟩
        cases same
        have whole := run.mpr ⟨part, parts⟩
        rw [whole]
        refine ⟨⟨kinds.mpr free, rfl⟩, ?_⟩
        rintro char ⟨⟩
        exact visible_of_name_start starts
    · constructor
      · rintro ⟨found, _⟩
        unfold lexeme operatorLexeme at found
        grind
      · rintro ⟨⟨_, _, same, start, _⟩, _⟩
        cases same
        exact absurd start starts

theorem written_digits {digits : List Char} (nonempty : digits ≠ [])
    (all : ∀ char ∈ digits, isDigit char = true) :
    (Word.numeral (String.ofList digits)).Written := by
  unfold Word.Written Word.numeral
  dsimp only
  rw [String.toList_ofList]
  cases digits with
  | nil => exact absurd rfl nonempty
  | cons first rest =>
    have digit := all first List.mem_cons_self
    have whole := (take_while_eq_self_iff isDigit (first :: rest)).mpr all
    constructor
    · rw [lexeme, if_neg (by simp [not_name_start_of_digit digit]), if_pos digit, whole]
    · rintro char ⟨⟩
      exact visible_of_digit digit

def Blank (text : List Char) : Prop :=
  ∀ char ∈ text, char ∈ separators

/-- The character continues no lexeme at all. -/
def isLoose (char : Char) : Bool :=
  !isNamePart char && char ≠ '=' && char ≠ '&' && char ≠ '|'

/-- The text is empty or starts with a character that continues no lexeme. -/
def Loose (text : List Char) : Prop :=
  ∀ char ∈ text.head?, isLoose char = true

theorem Loose.parted {rest : List Char} (loose : Loose rest) (text : List Char) :
    Parted text rest := by
  intro char first
  have free := loose char first
  simp only [isLoose, isNamePart, Bool.and_eq_true, Bool.not_eq_true', Bool.or_eq_false_iff,
    decide_eq_true_eq] at free
  obtain ⟨⟨⟨⟨start, digit⟩, equal⟩, conjunction⟩, disjunction⟩ := free
  cases text with
  | nil => rfl
  | cons first more =>
    simp [continues, isNamePart, isOperatorPair, start, digit, equal, conjunction, disjunction]

theorem loose_space (rest : List Char) : Loose (' ' :: rest) := by
  rintro other ⟨⟩
  decide

theorem loose_bracket {text : String} (bracket : text ∈ ["(", ")", ";", "\x7b", "\x7d"])
    (rest : List Char) : Loose (text.toList ++ rest) := by
  simp only [List.mem_cons, List.not_mem_nil, or_false] at bracket
  rcases bracket with rfl | rfl | rfl | rfl | rfl <;> rintro other ⟨⟩ <;> decide

theorem parted_bracket {text : String} (bracket : text ∈ ["(", ")", ";", "\x7b", "\x7d"])
    (rest : List Char) : Parted text.toList rest := by
  intro char _
  simp only [List.mem_cons, List.not_mem_nil, or_false] at bracket
  rcases bracket with rfl | rfl | rfl | rfl | rfl <;>
    simp [continues, isNameStart, isDigit, isOperatorPair]

namespace Scanner

variable {blanks rest : List Char} {word : Word}

theorem forward_append (left right : List Char) (place : Place) :
    (Scanner.mk (left ++ right) place).forward left.length = ⟨right, place.afterAll left⟩ := by
  simp [forward]

theorem skip_blanks_append (blank : Blank blanks)
    (visible : ∀ char ∈ rest.head?, isBlank char = false) (place : Place) :
    (Scanner.mk (blanks ++ rest) place).skipBlanks = ⟨rest, place.afterAll blanks⟩ := by
  have alone := (take_while_eq_self_iff isBlank blanks).mpr fun char member =>
    blank_iff.mpr (blank char member)
  have taken := (take_while_append_iff isBlank blanks rest).mpr ⟨alone, visible⟩
  rw [skipBlanks, taken, forward_append]

theorem skip_blanks_split (scanner : Scanner) :
    ∃ blanks, Blank blanks ∧ scanner.rest = blanks ++ scanner.skipBlanks.rest ∧
      ∀ char ∈ scanner.skipBlanks.rest.head?, isBlank char = false := by
  have whole : scanner.rest.takeWhile isBlank ++ scanner.rest.dropWhile isBlank = scanner.rest :=
    List.takeWhile_append_dropWhile
  have skipped : scanner.skipBlanks.rest = scanner.rest.dropWhile isBlank :=
    (congrArg (List.drop (scanner.rest.takeWhile isBlank).length) whole.symm).trans List.drop_left
  refine ⟨scanner.rest.takeWhile isBlank, ?_, ?_, ?_⟩
  · intro char member
    exact blank_iff.mp (List.all_eq_true.mp List.all_takeWhile char member)
  · rw [skipped, whole]
  · intro char first
    have stopped := List.head?_dropWhile_not isBlank scanner.rest
    rw [← skipped, first] at stopped
    exact stopped

/-- A word behind blanks and apart from what follows is the next token. -/
theorem next_of_written (blank : Blank blanks) (written : word.Written)
    (parted : Parted word.text.toList rest) (place : Place) :
    (Scanner.mk (blanks ++ (word.text.toList ++ rest)) place).next =
      (.ok (word.at (place.afterAll blanks)),
        ⟨rest, (place.afterAll blanks).afterAll word.text.toList⟩) := by
  have visible : ∀ char ∈ (word.text.toList ++ rest).head?, isBlank char = false := by
    intro char first
    rw [List.head?_append, Option.or_of_isSome (by simpa using written.text_ne_nil)] at first
    exact written.2 char first
  have found := Lexeme.append_iff.mpr ⟨written.1, parted⟩
  simp only [next, skip_blanks_append blank visible, found, forward_append, String.ofList_toList]
  rfl

theorem next_of_blanks (blank : Blank blanks) (place : Place) :
    (Scanner.mk blanks place).next =
      (.ok ⟨.endOfFile, none, (place.afterAll blanks).line, (place.afterAll blanks).column⟩,
        ⟨[], place.afterAll blanks⟩) := by
  have skipped : (Scanner.mk (blanks ++ []) place).skipBlanks = ⟨[], place.afterAll blanks⟩ :=
    skip_blanks_append blank (by simp) place
  rw [List.append_nil] at skipped
  simp only [next, skipped, lexeme_nil]

/-- What was taken for a token is blanks and then its text, which stands apart from what follows. -/
theorem next_eq_token {scanner after : Scanner} {token : Token}
    (taken : scanner.next = (.ok token, after)) (unfinished : token.kind ≠ .endOfFile) :
    ∃ blanks, Blank blanks ∧ token.word.Written ∧ Parted token.word.text.toList after.rest ∧
      scanner.rest = blanks ++ (token.word.text.toList ++ after.rest) := by
  obtain ⟨blanks, blank, split, visible⟩ := scanner.skip_blanks_split
  unfold next at taken
  cases found : lexeme scanner.skipBlanks.rest with
  | lone symbol => simp [found] at taken
  | finished =>
    simp only [found, Prod.mk.injEq, Except.ok.injEq] at taken
    exact absurd (by rw [← taken.1]) unfinished
  | token kind text =>
    simp only [found, Prod.mk.injEq, Except.ok.injEq] at taken
    obtain ⟨rfl, rfl⟩ := taken
    obtain ⟨behind, whole⟩ := Lexeme.eq_append found
    have rest : (scanner.skipBlanks.forward text.length).rest = behind := by
      simp [forward, whole]
    rw [whole] at found
    obtain ⟨alone, parted⟩ := Lexeme.append_iff.mp found
    have spelled : (Token.mk kind (some (String.ofList text)) scanner.skipBlanks.place.line
        scanner.skipBlanks.place.column).word.text.toList = text := by
      simp [Token.word]
    rw [spelled, rest, ← whole]
    refine ⟨blanks, blank, ⟨?_, ?_⟩, parted, split⟩
    · rw [spelled]
      exact alone
    · rw [spelled]
      intro char first
      refine visible char ?_
      rw [whole, List.head?_append, first]
      rfl

theorem text_of_next {scanner after : Scanner} {token : Token}
    (taken : scanner.next = (.ok token, after)) (unfinished : token.kind ≠ .endOfFile) :
    token.text = some token.word.text := by
  unfold next at taken
  cases found : lexeme scanner.skipBlanks.rest with
  | lone symbol => simp [found] at taken
  | finished =>
    simp only [found, Prod.mk.injEq, Except.ok.injEq] at taken
    exact absurd (by rw [← taken.1]) unfinished
  | token kind text =>
    simp only [found, Prod.mk.injEq, Except.ok.injEq] at taken
    rw [← taken.1]
    rfl

theorem Yields.written {first last : Scanner} {tokens : List Token}
    (yields : Yields first tokens last) (unfinished : ∀ token ∈ tokens, token.kind ≠ .endOfFile) :
    ∀ word ∈ words tokens, word.Written := by
  induction yields with
  | done scanner => simp
  | more taken later induction =>
    obtain ⟨_, _, written, _⟩ := next_eq_token taken (unfinished _ (by simp))
    intro word member
    rcases List.mem_cons.mp member with rfl | member
    · exact written
    · exact induction (fun token inside => unfinished token (by simp [inside])) word member

/-- What stands behind the last token yielded may be replaced by any text that stands apart from
it. -/
theorem Yields.replace {first last : Scanner} {tokens : List Token}
    (yields : Yields first tokens last) (unfinished : ∀ token ∈ tokens, token.kind ≠ .endOfFile) :
    ∃ front, first.rest = front ++ last.rest ∧ (front = [] → tokens = []) ∧
      ∀ other place, (∀ token ∈ tokens.getLast?, Parted token.word.text.toList other) →
        ∃ others behind, words others = words tokens ∧
          Yields ⟨front ++ other, place⟩ others ⟨other, behind⟩ := by
  induction yields with
  | done scanner =>
    exact ⟨[], rfl, fun _ => rfl, fun other place _ => ⟨[], place, rfl, .done _⟩⟩
  | @more scanner middle last token tokens taken later induction =>
    obtain ⟨blanks, blank, written, parted, split⟩ := next_eq_token taken (unfinished _ (by simp))
    obtain ⟨front, rest, empty, changed⟩ :=
      induction fun token inside => unfinished token (by simp [inside])
    refine ⟨blanks ++ (token.word.text.toList ++ front), by simp [split, rest], ?_, ?_⟩
    · intro nothing
      simp only [List.append_eq_nil_iff] at nothing
      exact absurd nothing.2.1 written.text_ne_nil
    intro other place apart
    have laterApart : ∀ token ∈ tokens.getLast?, Parted token.word.text.toList other := by
      intro next member
      refine apart next ?_
      cases tokens with
      | nil => cases member
      | cons _ _ => rwa [List.getLast?_cons_cons]
    -- The next text starts as before, unless this token was the last one.
    have stillParted : Parted token.word.text.toList (front ++ other) := by
      cases front with
      | nil =>
        cases empty rfl
        exact apart token rfl
      | cons char front =>
        rw [rest] at parted
        exact parted
    have next := next_of_written blank written stillParted place
    obtain ⟨others, behind, sameWords, yields⟩ :=
      changed other ((place.afterAll blanks).afterAll token.word.text.toList) laterApart
    refine ⟨token.word.at (place.afterAll blanks) :: others, behind, by simp [sameWords], ?_⟩
    have joined : blanks ++ (token.word.text.toList ++ front) ++ other =
        blanks ++ (token.word.text.toList ++ (front ++ other)) := by
      simp
    rw [joined]
    exact .more next yields

end Scanner

/-- The text shows these words one after another, and nothing else. -/
inductive Shows : List Char → List Word → Prop where
  | done {blanks : List Char} (blank : Blank blanks) : Shows blanks []
  | more {blanks rest : List Char} {word : Word} {spelling : List Word} (blank : Blank blanks)
      (written : word.Written) (parted : Parted word.text.toList rest)
      (later : Shows rest spelling) :
      Shows (blanks ++ (word.text.toList ++ rest)) (word :: spelling)

namespace Shows

variable {text : List Char} {spelling : List Word}

theorem space (shows : Shows text spelling) : Shows (' ' :: text) spelling := by
  cases shows with
  | done blanks => exact .done (List.forall_mem_cons.mpr ⟨by decide, blanks⟩)
  | more blanks written parted later =>
    exact .more (List.forall_mem_cons.mpr ⟨by decide, blanks⟩) written parted later

theorem word {word : Word} (written : word.Written) (parted : Parted word.text.toList text)
    (later : Shows text spelling) : Shows (word.text.toList ++ text) (word :: spelling) := by
  have nothing : Blank [] := by simp [Blank]
  exact Shows.more nothing written parted later

theorem spaced {word : Word} (written : word.Written) (later : Shows text spelling) :
    Shows (word.text.toList ++ ' ' :: text) (word :: spelling) :=
  .word written ((loose_space text).parted _) later.space

theorem bracket {symbol : String} (bracket : symbol ∈ ["(", ")", ";", "\x7b", "\x7d"])
    (later : Shows text spelling) : Shows (symbol.toList ++ text) (.symbol symbol :: spelling) := by
  have written : (Word.symbol symbol).Written := by
    simp only [List.mem_cons, List.not_mem_nil, or_false] at bracket
    rcases bracket with rfl | rfl | rfl | rfl | rfl <;> decide
  exact .word written (parted_bracket bracket text) later

theorem feed (shows : Shows text spelling) (place : Place) :
    ∃ tokens last, words tokens = spelling ∧
      (Scanner.mk text place).feed = .prepend tokens (.finish last) := by
  induction shows generalizing place with
  | done blank =>
    exact ⟨[], _, rfl, Scanner.feed_of_finish (Scanner.next_of_blanks blank place) rfl⟩
  | @more blanks rest word spelling blank written parted later induction =>
    have taken := Scanner.next_of_written blank written parted place
    obtain ⟨tokens, last, same, feed⟩ :=
      induction ((place.afterAll blanks).afterAll word.text.toList)
    refine ⟨word.at (place.afterAll blanks) :: tokens, last, by simp [same], ?_⟩
    rw [Scanner.feed_of_token taken written.unfinished, feed]
    rfl

end Shows

def render (spelling : List Word) : List Char :=
  spelling.flatMap fun word => word.text.toList ++ [' ']

theorem shows_render {spelling : List Word} (written : ∀ word ∈ spelling, word.Written) :
    Shows (render spelling) spelling := by
  induction spelling with
  | nil => exact .done (by simp [Blank, render])
  | cons word spelling induction =>
    have later := induction fun other member => written other (by simp [member])
    have shows := Shows.spaced (written word (by simp)) later
    simpa [render] using shows

end WhileLang
