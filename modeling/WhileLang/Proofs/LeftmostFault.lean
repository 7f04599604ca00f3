import WhileLang.Proofs.Recognition

/-!
# Faults are reported as far left as possible

A refused source is blamed at one token, or at a lone `&` or `|` in the place of a token. The tokens
before it could have been continued to a program, so nothing further left is at fault; and together
with the blamed token they decide the report, so nothing further right was looked at.
-/

namespace WhileLang

set_option autoImplicit false

def Token.label (token : Token) : TokenKind × Option String :=
  (token.kind, token.text)

/-- Two outcomes of reading a token that differ in their places at most. -/
def Alike : Except Fault Token → Except Fault Token → Prop
  | .ok left, .ok right => left.label = right.label
  | .error left, .error right => left.cause = right.cause
  | _, _ => False

/-- The fault is reported at what the scanner reads next: at a token, which its message names last,
or at a lone symbol, which is the scanner's own fault. -/
inductive Scanner.Blamed (scanner : Scanner) (fault : Fault) : Prop where
  | token {token : Token} {after : Scanner} (lead : String)
      (taken : scanner.next = (.ok token, after)) (origin : fault.cause.origin = .parser)
      (message : fault.cause.message = lead ++ token.describe)
      (line : fault.line = token.line) (column : fault.column = token.column)
  | lone {symbol : Char} {after : Scanner} (taken : scanner.next = (.error fault, after))
      (single : symbol = '&' ∨ symbol = '|') (stands : scanner.skipBlanks.peek = some symbol)
      (cause : fault.cause = .unknownOperator symbol) (origin : fault.cause.origin = .lexer)
      (line : fault.line = scanner.skipBlanks.place.line)
      (column : fault.column = scanner.skipBlanks.place.column)

variable {source : String} {fault : Fault} {tokens : List Token} {scanner : Scanner}

theorem Lexeme.eq_lone {text : List Char} {symbol : Char} (found : lexeme text = .lone symbol) :
    text.head? = some symbol ∧ (symbol = '&' ∨ symbol = '|') := by
  cases text with
  | nil => cases found
  | cons first rest =>
    unfold lexeme operatorLexeme at found
    grind

/-- A refused source was read up to a tail, and every source that reads alike is refused alike. -/
theorem refusal_of_parse (refused : parse source = .error fault) :
    ∃ expected tokens tail, (Scanner.ofString source).feed = .prepend tokens tail ∧
      fault = Refusal.fault ⟨expected, tail⟩ ∧
      (∃ nodes more, Derives (.statements nodes) (words tokens ++ more) ∧
        ∀ word ∈ more, word.Written) ∧
      ∀ other others last, (Scanner.ofString other).feed = .prepend others last →
        words others = words tokens → last.sign = tail.sign →
          parse other = .error (Refusal.fault ⟨expected, last⟩) := by
  obtain ⟨verdict, tokens, tail, split, judged, stable⟩ :=
    Descent.statements_meet (Scanner.ofString source).feed
  cases verdict with
  | ok nodes =>
    rw [(parse_of_feed split judged.1 judged.2).2] at refused
    cases refused
  | error expected =>
    have refuses : ∀ other others last, (Scanner.ofString other).feed = .prepend others last →
        words others = words tokens → last.sign = tail.sign →
          parse other = .error (Refusal.fault ⟨expected, last⟩) := by
      intro other others last feed sameWords sameSign
      have read := stable others last sameWords sameSign
      rw [← feed] at read
      rcases parse_cases other with ⟨nodes, rest, found, _⟩ | ⟨nodes, fault, found, _⟩ |
        ⟨refusal, found, result⟩
      · rw [read] at found
        cases found
      · rw [read] at found
        cases found
      · rw [read] at found
        cases found
        exact result
    have here := refuses source tokens tail split rfl rfl
    rw [refused] at here
    exact ⟨expected, tokens, tail, split, Except.error.inj here, judged, refuses⟩

theorem Expected.message_cause (expected : Expected) :
    ∃ lead, ∀ token, (expected.cause token).message = lead ++ token.describe := by
  cases expected with
  | operator symbol => exact ⟨_, fun _ => rfl⟩
  | operand => exact ⟨_, fun _ => rfl⟩
  | statement => exact ⟨_, fun _ => rfl⟩

theorem Expected.origin_cause (expected : Expected) (token : Token) :
    (expected.cause token).origin = .parser := by
  cases expected <;> rfl

theorem Expected.message_congr (expected : Expected) {left right : Token}
    (same : left.label = right.label) :
    (expected.cause left).message = (expected.cause right).message := by
  obtain ⟨lead, message⟩ := expected.message_cause
  simp only [Token.label, Prod.mk.injEq] at same
  rw [message, message, Token.describe, Token.describe, same.1, same.2]

theorem Scanner.blamed (scanner : Scanner) (expected : Expected) :
    scanner.Blamed (Refusal.fault ⟨expected, scanner.feed⟩) := by
  cases taken : scanner.next with
  | mk outcome after =>
    cases outcome with
    | ok token =>
      obtain ⟨lead, message⟩ := expected.message_cause
      have fault : Refusal.fault ⟨expected, scanner.feed⟩ =
          ⟨expected.cause token, token.line, token.column⟩ := by
        by_cases finished : token.kind = .endOfFile
        · rw [feed_of_finish taken finished]
          rfl
        · rw [feed_of_token taken finished]
          rfl
      rw [fault]
      exact .token lead taken (expected.origin_cause token) (message token) rfl rfl
    | error found =>
      have fault : Refusal.fault ⟨expected, scanner.feed⟩ = found := by
        rw [feed_of_fault taken]
        rfl
      rw [fault]
      cases front : lexeme scanner.skipBlanks.rest with
      | token kind text => simp [next, front] at taken
      | finished => simp [next, front] at taken
      | lone symbol =>
        obtain ⟨stands, single⟩ := Lexeme.eq_lone front
        have same := taken
        simp only [next, front, Prod.mk.injEq, Except.error.injEq] at same
        obtain ⟨rfl, rfl⟩ := same
        exact .lone taken single stands rfl rfl rfl rfl

theorem Alike.report {left right : Scanner} (alike : Alike left.next.1 right.next.1) :
    left.feed.sign = right.feed.sign ∧ ∀ expected : Expected,
      (Refusal.fault ⟨expected, left.feed⟩).cause.origin =
          (Refusal.fault ⟨expected, right.feed⟩).cause.origin ∧
        (Refusal.fault ⟨expected, left.feed⟩).cause.message =
          (Refusal.fault ⟨expected, right.feed⟩).cause.message := by
  cases leftTaken : left.next with
  | mk leftOutcome leftAfter =>
    cases rightTaken : right.next with
    | mk rightOutcome rightAfter =>
      rw [leftTaken, rightTaken] at alike
      cases leftOutcome with
      | error leftFault =>
        cases rightOutcome with
        | ok token => exact alike.elim
        | error rightFault =>
          rw [Scanner.feed_of_fault leftTaken, Scanner.feed_of_fault rightTaken]
          have same : leftFault.cause = rightFault.cause := alike
          refine ⟨congrArg Sign.fault same, fun _ => ?_⟩
          simp only [Refusal.fault, same, and_self]
      | ok leftToken =>
        cases rightOutcome with
        | error rightFault => exact alike.elim
        | ok rightToken =>
          have same : leftToken.label = rightToken.label := alike
          have kinds : leftToken.kind = rightToken.kind := congrArg Prod.fst same
          have words : leftToken.word = rightToken.word := by
            rw [Token.word, Token.word, kinds, show leftToken.text = rightToken.text from
              congrArg Prod.snd same]
          by_cases finished : rightToken.kind = .endOfFile
          · rw [Scanner.feed_of_finish leftTaken (kinds.trans finished),
              Scanner.feed_of_finish rightTaken finished]
            refine ⟨rfl, fun expected => ⟨?_, expected.message_congr same⟩⟩
            exact (expected.origin_cause _).trans (expected.origin_cause _).symm
          · rw [Scanner.feed_of_token leftTaken (kinds ▸ finished),
              Scanner.feed_of_token rightTaken finished]
            refine ⟨congrArg Sign.word words, fun expected => ⟨?_, expected.message_congr same⟩⟩
            exact (expected.origin_cause _).trans (expected.origin_cause _).symm

theorem words_eq_of_labels {others : List Token}
    (same : others.map Token.label = tokens.map Token.label) :
    words others = words tokens := by
  have spelled : ∀ tokens : List Token,
      words tokens = (tokens.map Token.label).map fun label => ⟨label.1, label.2.getD ""⟩ := by
    intro tokens
    rw [List.map_map]
    rfl
  rw [spelled, spelled, same]

theorem Scanner.Yields.labels {first last : Scanner} (yields : Scanner.Yields first tokens last)
    (unfinished : ∀ token ∈ tokens, token.kind ≠ .endOfFile) :
    tokens.map Token.label = (words tokens).map fun word => (word.kind, some word.text) := by
  induction yields with
  | done scanner => rfl
  | more taken later induction =>
    have text := Scanner.text_of_next taken (unfinished _ (by simp))
    have others := induction fun token inside => unfinished token (by simp [inside])
    simp only [List.map_cons, words_cons, others, Token.label]
    rw [text]
    rfl

theorem exists_accepted {nodes : List Node} {more : List Word} {front : List Word}
    (derives : Derives (.statements nodes) (front ++ more))
    (written : ∀ word ∈ front ++ more, word.Written) :
    ∃ other tree others last, parse other = .ok tree ∧ (Scanner.ofString other).Yields others last ∧
      words others = front ∧ ∀ token ∈ others, token.kind ≠ .endOfFile := by
  have shows := shows_render written
  obtain ⟨all, finish, sameWords, feed⟩ := shows.feed Place.start
  obtain ⟨others, rest, rfl, same, _⟩ := words_eq_append sameWords
  rw [Feed.prepend_append] at feed
  obtain ⟨last, yields, _, unfinished⟩ := Scanner.yields_of_feed_eq feed
  refine ⟨String.ofList (render (front ++ more)), .ofStatements nodes, others, last, ?_, ?_, same,
    unfinished⟩
  · exact parse_of_shows (by rwa [String.toList_ofList])
      ⟨nodes, derives, joined_of_statements nodes⟩
  · rwa [Scanner.ofString, String.toList_ofList]

/-- A report is the leftmost possible. The tokens before the blamed one start some program too; and
whatever else starts with them and goes on with the blamed token gets the same report. -/
theorem parse_error_leftmost (source : String) (fault : Fault)
    (refused : parse source = .error fault) :
    ∃ tokens blamed, (Scanner.ofString source).Yields tokens blamed ∧ blamed.Blamed fault ∧
      (∃ other tree others last, parse other = .ok tree ∧
        (Scanner.ofString other).Yields others last ∧
        others.map Token.label = tokens.map Token.label) ∧
      ∀ other others last, (Scanner.ofString other).Yields others last →
        others.map Token.label = tokens.map Token.label → Alike last.next.1 blamed.next.1 →
          ∃ found, parse other = .error found ∧ found.cause.origin = fault.cause.origin ∧
            found.cause.message = fault.cause.message := by
  obtain ⟨expected, tokens, tail, feed, rfl, ⟨nodes, more, derives, known⟩, refuses⟩ :=
    refusal_of_parse refused
  obtain ⟨blamed, yields, rfl, unfinished⟩ := Scanner.yields_of_feed_eq feed
  refine ⟨tokens, blamed, yields, blamed.blamed expected, ?_, ?_⟩
  · have written := List.forall_mem_append.mpr ⟨yields.written unfinished, known⟩
    obtain ⟨other, tree, others, last, accepted, read, same, othersUnfinished⟩ :=
      exists_accepted derives written
    refine ⟨other, tree, others, last, accepted, read, ?_⟩
    rw [read.labels othersUnfinished, yields.labels unfinished, same]
  · intro other others last read sameLabels alike
    have sameWords := words_eq_of_labels sameLabels
    have othersUnfinished : ∀ token ∈ others, token.kind ≠ .endOfFile := by
      intro token member
      have inside : token.word ∈ words tokens := sameWords ▸ List.mem_map_of_mem member
      obtain ⟨original, found, same⟩ := List.mem_map.mp inside
      rw [show token.kind = original.kind from (congrArg Word.kind same).symm]
      exact unfinished original found
    obtain ⟨sameSign, report⟩ := alike.report
    have result := refuses other others last.feed (read.feed_eq othersUnfinished) sameWords sameSign
    exact ⟨_, result, report expected⟩

/-- The `else` without an `if` is blamed, not the missing semicolon or the lone `&` behind it. -/
theorem parse_error_leftmost_else :
    parse "x; else 1 &" = .error ⟨.strayKeyword ⟨.keyword, some "else", 1, 4⟩, 1, 4⟩ ∧
      ∃ tokens blamed, (Scanner.ofString "x; else 1 &").Yields tokens blamed ∧
        blamed.Blamed ⟨.strayKeyword ⟨.keyword, some "else", 1, 4⟩, 1, 4⟩ ∧
        ∃ other tree others last, parse other = .ok tree ∧
          (Scanner.ofString other).Yields others last ∧
          others.map Token.label = tokens.map Token.label := by
  have refused : parse "x; else 1 &" =
      .error ⟨.strayKeyword ⟨.keyword, some "else", 1, 4⟩, 1, 4⟩ := by
    cbv
  obtain ⟨tokens, blamed, yields, at_else, viable, _⟩ := parse_error_leftmost _ _ refused
  exact ⟨refused, tokens, blamed, yields, at_else, viable⟩

end WhileLang
