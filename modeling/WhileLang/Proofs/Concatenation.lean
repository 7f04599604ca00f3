import WhileLang.Proofs.Execution
import WhileLang.Proofs.LeftmostFault
import WhileLang.Proofs.Lookahead

/-!
# One program behind another

A source that is read to its end closes with a semicolon or a brace and some blanks. So no lexeme
reaches over the end of it, and in front of another source it has the tokens it had; and unless an
`else` comes next, its statements are those it had. The two sources together are a program exactly
if the second one is, and running it is running one after the other.
-/

namespace WhileLang

set_option autoImplicit false

/-- The parser comes to the end of the file and answers with this tree. -/
def ParsedWhole (source : String) (tree : Node) : Prop :=
  ∃ cursor reader, Cursor.ofString source = .ok cursor ∧
    Parser.program (Parser.budgetFor cursor.scanner.rest.length) ⟨cursor, []⟩ = .ok tree reader ∧
    reader.cursor.current.kind = .endOfFile

variable {source : String} {tree : Node} {nodes : List Node} {tokens : List Token}

theorem ParsedWhole.feed (whole : ParsedWhole source tree) :
    ∃ nodes tokens last, (Scanner.ofString source).feed = .prepend tokens (.finish last) ∧
      Derives (.statements nodes) (words tokens) ∧ tree = .ofStatements nodes := by
  obtain ⟨cursor, reader, started, parsed, finished⟩ := whole
  have start : cursor.feed = (Scanner.ofString source).feed := (Cursor.At.of_string started).feed
  have agrees := cursor.agrees
  change EStateM.bind (Parser.statements _) _ _ = _ at parsed
  rw [EStateM.bind] at parsed
  generalize Parser.statements _ _ = outcome at agrees parsed
  generalize read : Descent.statements cursor.feed = reading at agrees
  cases agrees with
  | ok nodes last =>
    cases parsed
    obtain ⟨tokens, split, derives, _⟩ := Descent.derives_of_statements read
    rw [Reader.feed_of_finished finished] at split
    exact ⟨nodes, tokens, _, start.symm.trans split, derives, rfl⟩
  | late nodes fault last => cases parsed
  | refused refusal last => cases parsed

def EndsClosed (spelling : List Word) : Prop :=
  ∃ front word, spelling = front ++ [word] ∧ (word = .symbol ";" ∨ word = .symbol "\x7d")

theorem EndsClosed.behind {spelling : List Word} (closed : EndsClosed spelling)
    (front : List Word) :
    EndsClosed (front ++ spelling) := by
  obtain ⟨inner, word, rfl, known⟩ := closed
  exact ⟨front ++ inner, word, (List.append_assoc _ _ _).symm, known⟩

def Phrase.Closed : Phrase → List Word → Prop
  | statements _, spelling => spelling = [] ∨ EndsClosed spelling
  | block _ _, spelling | statement _ _, spelling => EndsClosed spelling
  | _, _ => True

theorem Derives.closed {phrase : Phrase} {spelling : List Word}
    (derives : Derives phrase spelling) :
    phrase.Closed spelling := by
  induction derives with
  | none => exact .inl rfl
  | more _ _ head tail =>
    rcases tail with rfl | tail
    · exact .inr (by rwa [List.append_nil])
    · exact .inr (tail.behind _)
  | braces => exact ⟨_, _, rfl, .inr rfl⟩
  | plain _ body => exact body
  | print => exact ⟨_, _, rfl, .inl rfl⟩
  | @ifThen _ _ _ test _ _ _ _ first =>
    have closed := first.behind (.keyword "if" :: .symbol "(" :: test ++ [.symbol ")"])
    simpa [Phrase.Closed] using closed
  | @ifElse _ _ _ _ test front _ _ _ _ _ _ second =>
    have closed := second.behind
      (.keyword "if" :: .symbol "(" :: test ++ .symbol ")" :: front ++ [.keyword "else"])
    simpa [Phrase.Closed] using closed
  | @whileLoop _ _ _ test _ _ _ _ inner =>
    have closed := inner.behind (.keyword "while" :: .symbol "(" :: test ++ [.symbol ")"])
    simpa [Phrase.Closed] using closed
  | evaluate => exact ⟨_, _, rfl, .inl rfl⟩
  | single | signed | unsigned | assign | value | apply | reference | literal | group => trivial

theorem Derives.parted_last (derives : Derives (.statements nodes) (words tokens))
    (rest : List Char) :
    ∀ token ∈ tokens.getLast?, Parted token.word.text.toList rest := by
  intro token member
  rcases derives.closed with empty | ⟨inner, word, spelled, closing⟩
  · rw [List.map_eq_nil_iff.mp empty] at member
    cases member
  · obtain ⟨others, ends, rfl, _, sameWord⟩ := words_eq_append spelled
    obtain ⟨closer, rfl, rfl⟩ := words_eq_singleton sameWord
    rw [List.getLast?_concat] at member
    cases member
    rcases closing with semicolon | brace
    · rw [semicolon]
      exact parted_bracket (show ";" ∈ _ by simp) rest
    · rw [brace]
      exact parted_bracket (show "\x7d" ∈ _ by simp) rest

namespace Scanner

theorem next_alike {blanks : List Char} (blank : Blank blanks) (scanner : Scanner) (place : Place) :
    Alike (Scanner.mk (blanks ++ scanner.rest) place).next.1 scanner.next.1 := by
  obtain ⟨gap, blankGap, split, visible⟩ := scanner.skip_blanks_split
  have both : Blank (blanks ++ gap) := List.forall_mem_append.mpr ⟨blank, blankGap⟩
  have skipped := skip_blanks_append both visible place
  rw [List.append_assoc, ← split] at skipped
  unfold next
  rw [skipped]
  dsimp only
  cases lexeme scanner.skipBlanks.rest <;> rfl

theorem Yields.feed_behind_blanks {scanner last : Scanner} (yields : Yields scanner tokens last)
    (unfinished : ∀ token ∈ tokens, token.kind ≠ .endOfFile) (blanks : List Char)
    (blank : Blank blanks) (place : Place) :
    ∃ others stand, (Scanner.mk (blanks ++ scanner.rest) place).feed =
      .prepend others (Scanner.feed stand) ∧
      words others = words tokens ∧ Alike stand.next.1 last.next.1 := by
  induction yields generalizing blanks place with
  | done scanner => exact ⟨[], _, rfl, rfl, next_alike blank scanner place⟩
  | @more scanner middle last token tokens taken later induction =>
    obtain ⟨gap, blankGap, written, parted, split⟩ := next_eq_token taken (unfinished _ (by simp))
    have both : Blank (blanks ++ gap) := List.forall_mem_append.mpr ⟨blank, blankGap⟩
    have next := next_of_written both written parted place
    rw [List.append_assoc, ← split] at next
    obtain ⟨others, stand, feed, sameWords, alike⟩ := induction
      (fun other member => unfinished other (by simp [member])) [] (by simp [Blank])
      ((place.afterAll (blanks ++ gap)).afterAll token.word.text.toList)
    refine ⟨token.word.at (place.afterAll (blanks ++ gap)) :: others, stand, ?_, ?_, alike⟩
    · rw [feed_of_token next written.unfinished]
      exact congrArg (Feed.token _) feed
    · simp [sameWords]

end Scanner

/-- In front of another source, one that is read to its end has the tokens it had, and so has the
other one behind it. -/
theorem feed_concat {first second : String} {last : Token} {more : List Token} {stop : Scanner}
    (feed : (Scanner.ofString first).feed = .prepend tokens (.finish last))
    (derives : Derives (.statements nodes) (words tokens))
    (yields : (Scanner.ofString second).Yields more stop)
    (unfinished : ∀ token ∈ more, token.kind ≠ .endOfFile) :
    ∃ left right stand, (Scanner.ofString (first ++ second)).feed =
        .prepend left (.prepend right (Scanner.feed stand)) ∧
      words left = words tokens ∧ words right = words more ∧ Alike stand.next.1 stop.next.1 := by
  obtain ⟨gap, before, finish, firstUnfinished⟩ := Scanner.yields_of_feed_eq feed
  obtain ⟨front, whole, _, changed⟩ := before.replace firstUnfinished
  have blank := Scanner.blank_of_feed_finish finish
  have apart := derives.parted_last (gap.rest ++ second.toList)
  -- The blanks at the end of the first source belong to the first token of the second one now.
  obtain ⟨left, place, sameLeft, leftYields⟩ :=
    changed (gap.rest ++ second.toList) Place.start apart
  obtain ⟨right, stand, rightFeed, sameRight, alike⟩ :=
    yields.feed_behind_blanks unfinished gap.rest blank place
  have leftUnfinished : ∀ token ∈ left, token.kind ≠ .endOfFile := by
    intro token member
    exact derives.unfinished token.word (sameLeft ▸ List.mem_map_of_mem member)
  have joined :
      Scanner.ofString (first ++ second) = ⟨front ++ (gap.rest ++ second.toList), Place.start⟩ := by
    rw [← List.append_assoc, ← whole, Scanner.ofString, String.toList_append]
    rfl
  refine ⟨left, right, stand, ?_, sameLeft, sameRight, alike⟩
  rw [joined, leftYields.feed_eq leftUnfinished]
  exact congrArg (Feed.prepend left) rightFeed

/-- Statements in front of a fault are refused there. They are not refused earlier, for in front of
the end of the file they would be too, and there they are read. -/
theorem Derives.statements_fault (derives : Derives (.statements nodes) (words tokens))
    (fault : Fault) :
    ∃ expected, Descent.statements (.prepend tokens (.fault fault)) =
      .error ⟨expected, .fault fault⟩ := by
  obtain ⟨verdict, others, tail, split, judged, stable⟩ :=
    Descent.statements_meet (.prepend tokens (.fault fault))
  obtain ⟨more, rfl, rfl⟩ := Feed.prepend_eq_prepend (Nat.zero_le _) split
  -- The verdict falls at the fault, or at a token before it that stands in front of any tail.
  cases more with
  | nil =>
    have read := stable others (.fault fault) rfl rfl
    rw [List.append_nil]
    cases verdict with
    | error expected => exact ⟨expected, read⟩
    | ok value => rcases judged.2 with sign | sign <;> cases sign
  | cons next more =>
    have read := derives.read _ (.finish next) rfl (.inl rfl)
    rw [Feed.prepend_append, stable others (.prepend (next :: more) (.finish next)) rfl rfl] at read
    cases verdict with
    | error expected => cases read
    | ok value => cases read

theorem Scanner.fault_or_detaches {scanner : Scanner}
    (detached : ∀ token after, scanner.next = (.ok token, after) → token.isKeyword "else" = false) :
    (∃ fault, scanner.feed = .fault fault) ∨ scanner.feed.sign.Detaches := by
  cases taken : scanner.next with
  | mk outcome after =>
    cases outcome with
    | error fault => exact .inl ⟨fault, feed_of_fault taken⟩
    | ok token =>
      right
      by_cases finished : token.kind = .endOfFile
      · rw [feed_of_finish taken finished]
        exact Sign.Stops.detaches (.inl rfl)
      · rw [feed_of_token taken finished]
        refine ⟨by simp [Feed.sign], fun same => ?_⟩
        have keyword := (token.is_keyword_iff "else" (by decide)).mpr (Sign.word.inj same)
        rw [detached token after taken] at keyword
        cases keyword

section Sources

variable {first second : String} {last : Token}
  (feed : (Scanner.ofString first).feed = .prepend tokens (.finish last))
  (derives : Derives (.statements nodes) (words tokens))

include feed derives

/-- Behind the statements of the first source, the descent does what it does on the second one
alone. -/
theorem statements_concat (detaches : (Scanner.ofString second).feed.sign.Detaches) :
    ∃ verdict stop stand, Descent.statements (Scanner.ofString second).feed =
        Descent.conclude verdict (Scanner.feed stop) ∧
      Descent.statements (Scanner.ofString (first ++ second)).feed =
        (Descent.conclude verdict (Scanner.feed stand)).map
          (fun later => (nodes ++ later.1, later.2)) ∧
      Alike stand.next.1 stop.next.1 := by
  obtain ⟨verdict, more, tail, split, _, stable⟩ :=
    Descent.statements_meet (Scanner.ofString second).feed
  obtain ⟨stop, yields, rfl, unfinished⟩ := Scanner.yields_of_feed_eq split
  obtain ⟨left, right, stand, joined, sameLeft, sameRight, alike⟩ :=
    feed_concat feed derives yields unfinished
  have sameSign := alike.report.1
  refine ⟨verdict, stop, stand, ?_, ?_, alike⟩
  · rw [split]
    exact stable more stop.feed rfl rfl
  · rw [split, ← Feed.sign_prepend_congr sameRight sameSign] at detaches
    rw [← sameLeft] at derives
    rw [joined, derives.statements_prepend detaches, stable right stand.feed sameRight sameSign]

theorem parse_concat_of_ok {other : Node} (accepted : parse second = .ok other) :
    ∃ others, other = .ofStatements others ∧
      parse (first ++ second) = .ok (.ofStatements (nodes ++ others)) := by
  have detaches : (Scanner.ofString second).feed.sign.Detaches := by
    obtain ⟨_, _, _, split, spelled, stops, _⟩ := feed_of_parse accepted
    rw [split]
    exact Phrase.detaches_statements spelled _ _ rfl stops.detaches
  obtain ⟨verdict, stop, stand, alone, joined, _⟩ := statements_concat feed derives detaches
  rw [parse_eq_program, Descent.program, alone] at accepted
  rw [parse_eq_program, Descent.program, joined]
  cases verdict with
  | error expected => cases accepted
  | ok others =>
    cases accepted
    exact ⟨others, rfl, rfl⟩

/-- A fault at the front of the second source is met behind the first one, whatever that ends
with. -/
theorem parse_concat_of_fault {fault : Fault}
    (broken : (Scanner.ofString second).feed = .fault fault) :
    ∃ found, parse (first ++ second) = .error found ∧ found.cause = fault.cause := by
  obtain ⟨left, right, stand, joined, sameLeft, sameRight, alike⟩ :=
    feed_concat feed derives (.done (Scanner.ofString second)) (by simp)
  have sign := alike.report.1
  rw [broken] at sign
  rw [List.map_eq_nil_iff.mp sameRight, Feed.prepend_nil] at joined
  cases front : stand.feed with
  | token token rest => simp [front, Feed.sign] at sign
  | finish token => simp [front, Feed.sign] at sign
  | fault found =>
    rw [← sameLeft] at derives
    obtain ⟨expected, read⟩ := derives.statements_fault found
    refine ⟨found, ?_, ?_⟩
    · rw [parse_eq_program, Descent.program, joined, front, read]
      rfl
    · rw [front] at sign
      exact Sign.fault.inj sign

theorem parse_concat_of_error {fault : Fault} (refused : parse second = .error fault)
    (detached : ∀ token after, (Scanner.ofString second).next = (.ok token, after) →
      token.isKeyword "else" = false) :
    ∃ found, parse (first ++ second) = .error found ∧ found.cause.origin = fault.cause.origin ∧
      found.cause.message = fault.cause.message := by
  rcases Scanner.fault_or_detaches detached with ⟨broken, front⟩ | detaches
  · obtain ⟨found, joined, same⟩ := parse_concat_of_fault feed derives front
    have alone : parse second = .error broken := by
      obtain ⟨refusal, stops, rfl⟩ := Descent.looks_statements broken
      rw [parse_eq_program, Descent.program, front, stops]
    rw [refused] at alone
    cases alone
    exact ⟨found, joined, by rw [same], by rw [same]⟩
  · obtain ⟨verdict, stop, stand, alone, joined, alike⟩ := statements_concat feed derives detaches
    rw [parse_eq_program, Descent.program, alone] at refused
    rw [parse_eq_program, Descent.program, joined]
    cases verdict with
    | ok others => cases refused
    | error expected =>
      cases refused
      exact ⟨_, rfl, alike.report.2 expected⟩

end Sources

/-- Two sources, the first read to its end, are a program together if the second one is, and running
it can be seen to do what running one after the other does. If the second one is refused, they are
refused together with the same report. -/
theorem parse_concat_runs_in_turn (first second : String) (tree : Node)
    (whole : ParsedWhole first tree) :
    (∀ other, parse second = .ok other →
      ∃ joined, parse (first ++ second) = .ok joined ∧
        ∀ start seen, (∃ last, Machine.Ends joined start last ∧ last.seen = seen) ↔
          ∃ middle last, Machine.Ends tree start middle ∧ Machine.Ends other middle last ∧
            last.seen = seen) ∧
      ∀ fault, parse second = .error fault →
        (∀ token after, (Scanner.ofString second).next = (.ok token, after) →
          token.isKeyword "else" = false) →
          ∃ found, parse (first ++ second) = .error found ∧
            found.cause.origin = fault.cause.origin ∧
            found.cause.message = fault.cause.message := by
  obtain ⟨nodes, tokens, last, feed, derives, rfl⟩ := whole.feed
  constructor
  · intro other accepted
    obtain ⟨others, rfl, joined⟩ := parse_concat_of_ok feed derives accepted
    exact ⟨_, joined, fun _ _ => Machine.ends_of_append_iff⟩
  · intro fault refused detached
    exact parse_concat_of_error feed derives refused detached

/-- The first source ends in an `if` that could still get an `else`. A statement behind it is not
drawn in, and a lone `&` is met where the `else` is looked for. -/
theorem parse_concat_runs_in_turn_dangling :
    ParsedWhole "if (x) y;" (.ifThen (.reference "x") (.reference "y")) ∧
      (∃ joined, parse ("if (x) y;" ++ "print z;") = .ok joined ∧
        ∀ start seen, (∃ last, Machine.Ends joined start last ∧ last.seen = seen) ↔
          ∃ middle last, Machine.Ends (.ifThen (.reference "x") (.reference "y")) start middle ∧
            Machine.Ends (.print (.reference "z")) middle last ∧ last.seen = seen) ∧
      ∃ found, parse ("if (x) y;" ++ " & z;") = .error found ∧ found.cause.origin = .lexer ∧
        found.cause.message = (Cause.unknownOperator '&').message := by
  have whole : ParsedWhole "if (x) y;" (.ifThen (.reference "x") (.reference "y")) :=
    ⟨_, _, rfl, by cbv, by cbv⟩
  refine ⟨whole, ?_, ?_⟩
  · exact (parse_concat_runs_in_turn _ "print z;" _ whole).1 (.print (.reference "z")) (by cbv)
  · have refused : parse " & z;" = .error ⟨.unknownOperator '&', 1, 2⟩ := by cbv
    refine (parse_concat_runs_in_turn _ " & z;" _ whole).2 _ refused ?_
    rintro token after ⟨⟩

end WhileLang
