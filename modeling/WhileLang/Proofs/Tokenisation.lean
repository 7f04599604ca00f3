import WhileLang.Proofs.Lexeme

/-!
# Tokenisation

A source is cut into blanks and texts, and nothing is lost. `TokenKind.Takes` says when a text
stands as a token in front of a rest: names and numerals go on as long as they can, an operator is
one of a fixed list, and any other character is a token of its own. `Cut` says which tokens a text
is cut into and where they stand. Both speak of characters alone, and reading a source to its end
does exactly what they say.
-/

namespace WhileLang

set_option autoImplicit false

/-- The line that goes on or begins behind `before`. -/
def lineBehind (before : List Char) : Nat :=
  1 + before.count '\n'

/-- The column behind `before`, counted from its last line feed. -/
def columnBehind (before : List Char) : Nat :=
  1 + (before.rtakeWhile (· ≠ '\n')).length

theorem line_behind_concat (before : List Char) (char : Char) :
    lineBehind (before ++ [char]) =
      if char = '\n' then lineBehind before + 1 else lineBehind before := by
  rw [lineBehind, lineBehind, List.count_append, List.count_singleton]
  by_cases feed : char = '\n'
  · rw [if_pos feed, if_pos (by simp [feed]), Nat.add_assoc]
  · rw [if_neg feed, if_neg (by simp [feed]), Nat.add_zero]

theorem column_behind_concat (before : List Char) (char : Char) :
    columnBehind (before ++ [char]) = if char = '\n' then 1 else columnBehind before + 1 := by
  rw [columnBehind, columnBehind]
  by_cases feed : char = '\n'
  · rw [if_pos feed, List.rtakeWhile_concat_neg _ _ _ (by simp [feed])]
    rfl
  · rw [if_neg feed, List.rtakeWhile_concat_pos _ _ _ (by simp [feed]), List.length_append,
      Nat.add_assoc]
    rfl

namespace Place

theorem after_all_append (place : Place) (left right : List Char) :
    place.afterAll (left ++ right) = (place.afterAll left).afterAll right :=
  List.foldl_append

theorem after_all_start (before : List Char) :
    start.afterAll before =
      ⟨before.length, .ofNat (lineBehind before), .ofNat (columnBehind before)⟩ := by
  -- A place moves over the last character last, so the induction takes the text apart from its end.
  induction before using List.reverseRecOn with
  | nil => rfl
  | append_singleton before char induction =>
    have step : start.afterAll (before ++ [char]) = (start.afterAll before).after char :=
      after_all_append start before [char]
    rw [step, induction, after, line_behind_concat, column_behind_concat, List.length_append]
    by_cases feed : char = '\n'
    · rw [if_pos feed, if_pos feed, if_pos feed, UInt64.ofNat_add]
      rfl
    · rw [if_neg feed, if_neg feed, if_neg feed, UInt64.ofNat_add]
      rfl

end Place

/-- A run of accepted characters that the rest does not continue. -/
structure LongestRun (accept : Char → Bool) (text rest : List Char) : Prop where
  accepted : ∀ char ∈ text, accept char = true
  stopped : ∀ char ∈ rest.head?, accept char = false

/-- A run of letters, digits and underscores that starts with no digit and is as long as it can
be. -/
structure LongestName (text rest : List Char) : Prop where
  starts : ∃ first ∈ text.head?, first.isAlpha = true ∨ first = '_'
  run : LongestRun (fun char => char.isAlphanum || char = '_') text rest

def singleOperators : List Char :=
  ['!', '(', ')', '+', '-', '/', '*', '=', '{', '}', '<', '>', ';']

def doubleOperators : List String :=
  ["==", "!=", ">=", "<=", "&&", "||"]

/-- In front of `rest`, the text stands as a token of this kind. -/
inductive TokenKind.Takes : TokenKind → List Char → List Char → Prop where
  | keyword {text rest : List Char} (name : LongestName text rest)
      (listed : String.ofList text ∈ keywords) : Takes .keyword text rest
  | identifier {text rest : List Char} (name : LongestName text rest)
      (free : String.ofList text ∉ keywords) : Takes .identifier text rest
  | numeric {text rest : List Char} (nonempty : text ≠ [])
      (run : LongestRun Char.isDigit text rest) :
      Takes .numeric text rest
  | single {char : Char} {rest : List Char} (known : char ∈ singleOperators)
      (apart : char ∈ ['=', '!', '<', '>'] → rest.head? ≠ some '=') : Takes .operator [char] rest
  | double {text rest : List Char} (known : String.ofList text ∈ doubleOperators) :
      Takes .operator text rest
  | unknown {char : Char} {rest : List Char} (visible : char ∉ separators)
      (unnamed : char.isAlphanum = false ∧ char ≠ '_')
      (other : char ∉ singleOperators ∧ char ≠ '&' ∧ char ≠ '|') : Takes .unknown [char] rest

theorem operator_start_iff (char : Char) :
    isOperatorStart char = true ↔ char ∈ singleOperators ∨ char = '&' ∨ char = '|' := by
  simp only [isOperatorStart, singleOperators, List.contains_iff_mem, List.mem_cons,
    List.not_mem_nil]
  grind

theorem LongestRun.take_while_iff {accept : Char → Bool} {text rest : List Char} :
    LongestRun accept text rest ↔ (text ++ rest).takeWhile accept = text := by
  rw [take_while_append_iff, take_while_eq_self_iff]
  exact ⟨fun run => ⟨run.accepted, run.stopped⟩, fun both => ⟨both.1, both.2⟩⟩

theorem lexeme_operator {first : Char} (operator : isOperatorStart first = true)
    (rest : List Char) :
    lexeme (first :: rest) = operatorLexeme first rest := by
  -- No operator starts like a name or a numeral, so the two tests before it fail.
  have plain : isNameStart first = false ∧ isDigit first = false := by
    simp only [isOperatorStart, List.contains_iff_mem, List.mem_cons, List.not_mem_nil,
      or_false] at operator
    rcases operator with rfl | rfl | rfl | rfl | rfl | rfl | rfl | rfl | rfl | rfl | rfl | rfl |
      rfl | rfl | rfl <;> decide
  rw [lexeme, if_neg (by simp [plain.1]), if_neg (by simp [plain.2]), if_pos operator]

theorem mem_double_operators {text : List Char} (listed : String.ofList text ∈ doubleOperators) :
    text ∈ [['=', '='], ['!', '='], ['>', '='], ['<', '='], ['&', '&'], ['|', '|']] := by
  have spelled : text ∈ doubleOperators.map String.toList :=
    List.mem_map.mpr ⟨_, listed, String.toList_ofList⟩
  exact spelled

theorem operator_pair_iff (first second : Char) :
    isOperatorPair first second = true ↔ String.ofList [first, second] ∈ doubleOperators := by
  constructor
  · intro pair
    simp only [isOperatorPair, Bool.or_eq_true, Bool.and_eq_true, decide_eq_true_eq] at pair
    rcases pair with (⟨rfl, ((rfl | rfl) | rfl) | rfl⟩ | ⟨rfl, rfl⟩) | ⟨rfl, rfl⟩ <;> decide
  · intro listed
    have spelled := mem_double_operators listed
    simp only [List.mem_cons, List.not_mem_nil, or_false] at spelled
    rcases spelled with same | same | same | same | same | same <;> cases same <;> decide

theorem operator_lexeme_single_iff (char : Char) (rest : List Char) (kind : TokenKind) :
    operatorLexeme char rest = .token kind [char] ↔
      kind = .operator ∧ char ≠ '&' ∧ char ≠ '|' ∧
        ∀ second ∈ rest.head?, isOperatorPair char second = false := by
  unfold operatorLexeme
  grind

theorem operator_lexeme_double_iff (first second : Char) (more rest : List Char)
    (kind : TokenKind) :
    operatorLexeme first (second :: more ++ rest) = .token kind (first :: second :: more) ↔
      kind = .operator ∧ more = [] ∧ isOperatorPair first second = true := by
  unfold operatorLexeme
  grind

theorem operator_lexeme_lone_iff (first : Char) (rest : List Char) (symbol : Char) :
    operatorLexeme first rest = .lone symbol ↔
      first = symbol ∧ (symbol = '&' ∨ symbol = '|') ∧ rest.head? ≠ some symbol := by
  unfold operatorLexeme isOperatorPair
  grind

namespace LongestName

variable {text rest : List Char}

theorem lexeme (name : LongestName text rest) :
    WhileLang.lexeme (text ++ rest) = .token (nameKind text) text := by
  obtain ⟨first, stands, starts⟩ := name.starts
  have known : isNameStart first = true := by
    rw [name_start_eq]
    simpa using starts
  have run : (text ++ rest).takeWhile isNamePart = text := by
    rw [show isNamePart = fun char => char.isAlphanum || char = '_' from funext name_part_eq]
    exact LongestRun.take_while_iff.mp name.run
  cases text with
  | nil => cases stands
  | cons other more =>
    cases stands
    rw [List.cons_append] at run ⊢
    rw [WhileLang.lexeme, if_pos known, run]

theorem of_take_while {first : Char} (starts : isNameStart first = true)
    (run : (first :: (text ++ rest)).takeWhile isNamePart = first :: text) :
    LongestName (first :: text) rest := by
  rw [name_start_eq] at starts
  refine ⟨⟨first, rfl, by simpa using starts⟩, LongestRun.take_while_iff.mpr ?_⟩
  rw [show isNamePart = fun char => char.isAlphanum || char = '_' from funext name_part_eq] at run
  exact run

theorem takes (name : LongestName text rest) : (nameKind text).Takes text rest := by
  unfold nameKind
  split
  · rename_i listed
    exact .keyword name (List.contains_iff_mem.mp listed)
  · rename_i free
    exact .identifier name fun listed => free (List.contains_iff_mem.mpr listed)

end LongestName

namespace TokenKind.Takes

variable {kind : TokenKind} {text rest : List Char}

theorem lexeme (takes : kind.Takes text rest) :
    WhileLang.lexeme (text ++ rest) = .token kind text := by
  cases takes with
  | keyword name listed =>
    rw [name.lexeme, nameKind, if_pos (List.contains_iff_mem.mpr listed)]
  | identifier name free =>
    rw [name.lexeme, nameKind, if_neg fun listed => free (List.contains_iff_mem.mp listed)]
  | numeric nonempty run =>
    have whole := LongestRun.take_while_iff.mp run
    cases text with
    | nil => exact absurd rfl nonempty
    | cons first more =>
      have digit : isDigit first = true := run.accepted first List.mem_cons_self
      rw [List.cons_append] at whole ⊢
      rw [WhileLang.lexeme, if_neg (by simp [not_name_start_of_digit digit]), if_pos digit]
      exact congrArg (Lexeme.token .numeric) whole
  | @single char _ known apart =>
    have starts := (operator_start_iff char).mpr (.inl known)
    have lonely : char ≠ '&' ∧ char ≠ '|' := by
      constructor <;> rintro rfl <;> revert known <;> decide
    have unpaired : ∀ second ∈ rest.head?, isOperatorPair char second = false := by
      intro second stands
      rw [Bool.eq_false_iff]
      intro pair
      simp only [isOperatorPair, lonely.1, lonely.2, Bool.or_eq_true, Bool.and_eq_true,
        decide_eq_true_eq, decide_false, Bool.false_eq_true, false_and, or_false] at pair
      obtain ⟨rfl, first⟩ := pair
      exact apart (by simpa [or_assoc] using first) stands
    exact (lexeme_operator starts rest).trans
      ((operator_lexeme_single_iff char rest .operator).mpr ⟨rfl, lonely.1, lonely.2, unpaired⟩)
  | double known =>
    have spelled := mem_double_operators known
    simp only [List.mem_cons, List.not_mem_nil, or_false] at spelled
    rcases spelled with rfl | rfl | rfl | rfl | rfl | rfl <;> rfl
  | @unknown char _ visible unnamed other =>
    have digit : isDigit char = false := by
      simpa [digit_eq, Char.isAlphanum] using (Bool.or_eq_false_iff.mp unnamed.1).2
    have start : isNameStart char = false := by
      simpa [name_start_eq, unnamed.2] using (Bool.or_eq_false_iff.mp unnamed.1).1
    have operator : ¬isOperatorStart char = true := by
      rw [operator_start_iff]
      simpa using other
    change WhileLang.lexeme (char :: rest) = _
    rw [WhileLang.lexeme, if_neg (by simp [start]), if_neg (by simp [digit]), if_neg operator]

theorem of_operator {first : Char} (starts : isOperatorStart first = true)
    (found : operatorLexeme first (text ++ rest) = .token kind (first :: text)) :
    kind.Takes (first :: text) rest := by
  cases text with
  | nil =>
    obtain ⟨rfl, conjunction, disjunction, unpaired⟩ := (operator_lexeme_single_iff _ _ _).mp found
    have known : first ∈ singleOperators := by
      rcases (operator_start_iff first).mp starts with known | alone | alone
      · exact known
      · exact absurd alone conjunction
      · exact absurd alone disjunction
    refine .single known fun completes stands => ?_
    have alone := unpaired '=' stands
    simp only [List.mem_cons, List.not_mem_nil, or_false] at completes
    rcases completes with rfl | rfl | rfl | rfl <;> revert alone <;> decide
  | cons second more =>
    obtain ⟨rfl, rfl, pair⟩ := (operator_lexeme_double_iff _ _ _ _ _).mp found
    exact .double ((operator_pair_iff first second).mp pair)

theorem of_lexeme (found : WhileLang.lexeme (text ++ rest) = .token kind text)
    (visible : ∀ char ∈ text.head?, isBlank char = false) : kind.Takes text rest := by
  cases text with
  | nil => exact absurd rfl (Scanner.lexeme_text_ne_nil found)
  | cons first more =>
    rw [List.cons_append, WhileLang.lexeme] at found
    split at found
    · rename_i starts
      obtain ⟨rfl, run⟩ := Lexeme.token.inj found
      rw [run]
      exact (LongestName.of_take_while starts run).takes
    · split at found
      · rename_i digit
        obtain ⟨rfl, run⟩ := Lexeme.token.inj found
        exact .numeric (by simp) (LongestRun.take_while_iff.mpr run)
      · split at found
        · rename_i operator
          exact of_operator operator found
        · rename_i name digit operator
          obtain ⟨rfl, same⟩ := Lexeme.token.inj found
          cases same
          rw [operator_start_iff] at operator
          rw [name_start_eq, Bool.or_eq_true, decide_eq_true_eq, not_or, Bool.not_eq_true] at name
          rw [digit_eq, Bool.not_eq_true] at digit
          refine .unknown (visible_iff.mp (visible first rfl)) ⟨?_, name.2⟩
            (by simpa using operator)
          rw [Char.isAlphanum, name.1, digit]
          rfl

theorem visible (takes : kind.Takes text rest) : ∀ char ∈ text.head?, isBlank char = false := by
  have named : LongestName text rest → ∀ char ∈ text.head?, isBlank char = false := by
    intro name char stands
    obtain ⟨first, same, starts⟩ := name.starts
    cases stands.symm.trans same
    exact visible_of_name_start (by rw [name_start_eq]; simpa using starts)
  cases takes with
  | keyword name listed => exact named name
  | identifier name free => exact named name
  | numeric nonempty run =>
    intro char stands
    exact visible_of_digit (run.accepted char (List.mem_of_head? stands))
  | single known apart =>
    rintro char ⟨⟩
    simp only [singleOperators, List.mem_cons, List.not_mem_nil, or_false] at known
    rcases known with rfl | rfl | rfl | rfl | rfl | rfl | rfl | rfl | rfl | rfl | rfl | rfl |
      rfl <;> decide
  | double known =>
    have spelled := mem_double_operators known
    simp only [List.mem_cons, List.not_mem_nil, or_false] at spelled
    rcases spelled with rfl | rfl | rfl | rfl | rfl | rfl <;> rintro char ⟨⟩ <;> decide
  | unknown visible unnamed other =>
    rintro char ⟨⟩
    exact visible_iff.mpr visible

end TokenKind.Takes

namespace Scanner

variable {gap text rest : List Char} {kind : TokenKind} {symbol : Char}

theorem next_of_takes (blank : Blank gap) (takes : kind.Takes text rest) (place : Place) :
    (Scanner.mk (gap ++ (text ++ rest)) place).next =
      (.ok ⟨kind, some (String.ofList text), (place.afterAll gap).line,
        (place.afterAll gap).column⟩, ⟨rest, (place.afterAll gap).afterAll text⟩) := by
  have visible : ∀ char ∈ (text ++ rest).head?, isBlank char = false := by
    intro char stands
    have nonempty := lexeme_text_ne_nil takes.lexeme
    rw [List.head?_append, Option.or_of_isSome (by simpa using nonempty)] at stands
    exact takes.visible char stands
  simp only [next, skip_blanks_append blank visible, takes.lexeme, forward_append]

theorem next_of_lone (blank : Blank gap) (single : symbol = '&' ∨ symbol = '|')
    (apart : rest.head? ≠ some symbol) (place : Place) :
    (Scanner.mk (gap ++ symbol :: rest) place).next =
      (.error ⟨.unknownOperator symbol, (place.afterAll gap).line, (place.afterAll gap).column⟩,
        ⟨rest, (place.afterAll gap).afterAll [symbol]⟩) := by
  have visible : ∀ char ∈ (symbol :: rest).head?, isBlank char = false := by
    rintro char ⟨⟩
    rcases single with rfl | rfl <;> decide
  have found : lexeme (symbol :: rest) = .lone symbol := by
    rw [lexeme_operator ((operator_start_iff symbol).mpr (.inr single))]
    exact (operator_lexeme_lone_iff symbol rest symbol).mpr ⟨rfl, single, apart⟩
  simp only [next, skip_blanks_append blank visible, found]
  rfl

theorem front_cases (source : List Char) :
    Blank source ∨
      (∃ gap symbol rest, Blank gap ∧ (symbol = '&' ∨ symbol = '|') ∧ rest.head? ≠ some symbol ∧
        source = gap ++ symbol :: rest) ∨
      ∃ gap kind text rest, Blank gap ∧ TokenKind.Takes kind text rest ∧
        source = gap ++ (text ++ rest) := by
  obtain ⟨gap, blank, split, visible⟩ := skip_blanks_split ⟨source, Place.start⟩
  generalize (Scanner.mk source Place.start).skipBlanks.rest = front at split visible
  dsimp only at split
  cases found : lexeme front with
  | finished =>
    cases front with
    | nil =>
      rw [List.append_nil] at split
      exact .inl (split ▸ blank)
    | cons first rest =>
      unfold lexeme operatorLexeme at found
      grind
  | lone symbol =>
    cases front with
    | nil => cases found
    | cons first rest =>
      have starts : isOperatorStart first = true := by
        unfold lexeme at found
        grind
      rw [lexeme_operator starts, operator_lexeme_lone_iff] at found
      obtain ⟨rfl, single, apart⟩ := found
      exact .inr (.inl ⟨gap, first, rest, blank, single, apart, split⟩)
  | token kind text =>
    obtain ⟨rest, rfl⟩ := Lexeme.eq_append found
    refine .inr (.inr ⟨gap, kind, text, rest, blank, .of_lexeme found ?_, split⟩)
    intro char stands
    refine visible char ?_
    rw [List.head?_append, stands]
    rfl

theorem read_all_eq (scanner : Scanner) :
    scanner.readAll =
      match scanner.next with
      | (.error fault, after) => ⟨[], some fault, after⟩
      | (.ok token, after) =>
        if token.kind = .endOfFile then ⟨[token], none, after⟩
        else { after.readAll with tokens := token :: after.readAll.tokens } := by
  rw [readAll]
  split
  · rename_i taken
    simp only [taken]
  · rename_i taken
    split
    · rename_i finished
      simp only [taken, if_pos finished]
    · rename_i unfinished
      simp only [taken, if_neg unfinished]

theorem read_all_eq_feed (scanner : Scanner) :
    scanner.readAll.tokens = scanner.feed.tokens ∧
      scanner.readAll.failure = scanner.feed.failure := by
  rw [read_all_eq]
  cases taken : scanner.next with
  | mk outcome after =>
    cases outcome with
    | error fault =>
      rw [feed_of_fault taken]
      exact ⟨rfl, rfl⟩
    | ok token =>
      by_cases finished : token.kind = .endOfFile
      · rw [feed_of_finish taken finished]
        dsimp only
        rw [if_pos finished]
        exact ⟨rfl, rfl⟩
      · have shorter := next_shortens taken finished
        obtain ⟨sameTokens, sameFailure⟩ := read_all_eq_feed after
        rw [feed_of_token taken finished]
        dsimp only
        rw [if_neg finished]
        exact ⟨congrArg (token :: ·) sameTokens, sameFailure⟩
termination_by scanner.rest.length

end Scanner

/-- The text `rest` behind `before` is cut into these tokens, up to the end of the file or to a lone
symbol. -/
inductive Cut : List Char → List Char → List Token → Option Fault → Prop where
  | finish {before gap : List Char} (blank : Blank gap) :
      Cut before gap
        [⟨.endOfFile, none, .ofNat (lineBehind (before ++ gap)),
          .ofNat (columnBehind (before ++ gap))⟩] none
  | lone {before gap rest : List Char} {symbol : Char} (blank : Blank gap)
      (single : symbol = '&' ∨ symbol = '|') (apart : rest.head? ≠ some symbol) :
      Cut before (gap ++ symbol :: rest) [] (some
        ⟨.unknownOperator symbol, .ofNat (lineBehind (before ++ gap)),
          .ofNat (columnBehind (before ++ gap))⟩)
  | token {before gap text rest : List Char} {kind : TokenKind} {tokens : List Token}
      {failure : Option Fault} (blank : Blank gap) (takes : kind.Takes text rest)
      (later : Cut (before ++ gap ++ text) rest tokens failure) :
      Cut before (gap ++ (text ++ rest))
        (⟨kind, some (String.ofList text), .ofNat (lineBehind (before ++ gap)),
          .ofNat (columnBehind (before ++ gap))⟩ :: tokens)
        failure

namespace Cut

/-- Reading yields the tokens of a cut, whatever the cut is. -/
theorem read {before rest : List Char} {tokens : List Token} {failure : Option Fault}
    (cut : Cut before rest tokens failure) :
    (Scanner.mk rest (Place.start.afterAll before)).readAll.tokens = tokens ∧
      (Scanner.mk rest (Place.start.afterAll before)).readAll.failure = failure := by
  induction cut with
  | finish blank =>
    rw [Scanner.read_all_eq, Scanner.next_of_blanks blank, ← Place.after_all_append,
      Place.after_all_start]
    exact ⟨rfl, rfl⟩
  | lone blank single apart =>
    rw [Scanner.read_all_eq, Scanner.next_of_lone blank single apart, ← Place.after_all_append,
      Place.after_all_start]
    exact ⟨rfl, rfl⟩
  | @token before gap text rest kind tokens failure blank takes later induction =>
    obtain ⟨sameTokens, sameFailure⟩ := induction
    have unfinished : kind ≠ .endOfFile := Lexeme.kind_ne_end_of_file takes.lexeme
    rw [Scanner.read_all_eq, Scanner.next_of_takes blank takes, ← Place.after_all_append,
      ← Place.after_all_append, Place.after_all_start (before ++ gap)]
    dsimp only
    rw [if_neg unfinished]
    exact ⟨congrArg _ sameTokens, sameFailure⟩

theorem exists_cut (before rest : List Char) :
    ∃ tokens failure, Cut before rest tokens failure := by
  induction measured : rest.length using Nat.strong_induction_on generalizing before rest with
  | h size induction =>
    rcases Scanner.front_cases rest with
      blank | ⟨gap, symbol, behind, blank, single, apart, rfl⟩ |
        ⟨gap, kind, text, behind, blank, takes, rfl⟩
    · exact ⟨_, _, .finish blank⟩
    · exact ⟨_, _, .lone blank single apart⟩
    · -- A token takes at least one character, and the rest is cut with all that stands before it.
      have nonempty := List.length_pos_iff.mpr (Scanner.lexeme_text_ne_nil takes.lexeme)
      have shorter : behind.length < size := by
        simp only [List.length_append] at measured
        omega
      obtain ⟨tokens, failure, later⟩ := induction _ shorter (before ++ gap ++ text) behind rfl
      exact ⟨_, _, .token blank takes later⟩

end Cut

/-- Reading a source to its end or to the first fault cuts it into blanks and tokens, all of it,
each token as long as it can be and at its own line and column; and there is no other such cut. -/
theorem read_all_iff_cut (source : String) (tokens : List Token) (failure : Option Fault) :
    ((Scanner.ofString source).readAll.tokens = tokens ∧
        (Scanner.ofString source).readAll.failure = failure) ↔
      Cut [] source.toList tokens failure := by
  constructor
  · rintro ⟨rfl, rfl⟩
    obtain ⟨tokens, failure, cut⟩ := Cut.exists_cut [] source.toList
    obtain ⟨sameTokens, sameFailure⟩ := cut.read
    rw [← sameTokens, ← sameFailure] at cut
    exact cut
  · intro cut
    exact cut.read

end WhileLang
