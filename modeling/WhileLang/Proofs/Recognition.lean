import WhileLang.Proofs.Agreement
import WhileLang.Proofs.Completeness
import WhileLang.Proofs.Viability

/-!
# The parser recognises the grammar

A source is accepted exactly if the tokens at its front spell a list of statements in front of the
end of the file or of a closing brace. Then the tree is the one they spell, no other tokens and no
other tree will do, and what comes behind a closing brace was never looked at.
-/

namespace WhileLang

set_option autoImplicit false

theorem Derives.unfinished {phrase : Phrase} {spelling : List Word}
    (derives : Derives phrase spelling) :
    ∀ word ∈ spelling, word.kind ≠ .endOfFile := by
  induction derives with
  | none => simp
  | more _ _ first later => exact List.forall_mem_append.mpr ⟨first, later⟩
  | plain _ body | value _ body | single _ body | unsigned _ body => exact body
  | ifThen _ _ test body | whileLoop _ _ test body =>
    simpa [Word.symbol, Word.keyword, or_imp, forall_and] using ⟨test, body⟩
  | ifElse _ _ _ test first second =>
    simpa [Word.symbol, Word.keyword, or_imp, forall_and] using ⟨test, first, second⟩
  | apply op _ _ first second => simpa [Word.symbol, or_imp, forall_and] using ⟨first, second⟩
  | braces _ _ body | print _ body | evaluate _ body | assign _ body | signed _ _ body
  | group _ body =>
    simpa [Word.symbol, Word.keyword, Word.name, or_imp, forall_and] using body
  | reference text => simp [Word.name]
  | literal digits => simp [Word.numeral]

variable {source : String} {tokens : List Token} {tail : Feed} {nodes : List Node} {tree : Node}

theorem parse_of_feed (feed : (Scanner.ofString source).feed = .prepend tokens tail)
    (derives : Derives (.statements nodes) (words tokens)) (stops : tail.sign.Stops) :
    Descent.statements (Scanner.ofString source).feed = .ok (nodes, tail) ∧
      parse source = .ok (.ofStatements nodes) := by
  have read : Descent.statements (Scanner.ofString source).feed = .ok (nodes, tail) := by
    rw [feed]
    exact derives.read tokens tail rfl stops
  refine ⟨read, ?_⟩
  rcases parse_cases source with ⟨others, rest, found, _, result⟩ | ⟨others, fault, found, _⟩ |
    ⟨refusal, found, _⟩
  · rw [read] at found
    cases found
    exact result
  · rw [read] at found
    cases found
    rcases stops with sign | sign <;> cases sign
  · rw [read] at found
    cases found

theorem feed_of_parse (accepted : parse source = .ok tree) :
    ∃ nodes tokens tail, (Scanner.ofString source).feed = .prepend tokens tail ∧
      Derives (.statements nodes) (words tokens) ∧ tail.sign.Stops ∧
        tree = .ofStatements nodes := by
  rcases parse_cases source with ⟨nodes, tail, read, _, result⟩ | ⟨nodes, fault, _, result⟩ |
    ⟨refusal, _, result⟩
  · rw [accepted] at result
    cases result
    obtain ⟨tokens, split, derives, stops⟩ := Descent.derives_of_statements read
    exact ⟨nodes, tokens, tail, split, derives, stops, rfl⟩
  · rw [accepted] at result
    cases result
  · rw [accepted] at result
    cases result

theorem parse_of_shows {spelling : List Word} (shows : Shows source.toList spelling)
    (spells : Spells spelling tree) : parse source = .ok tree := by
  obtain ⟨tokens, last, rfl, feed⟩ := shows.feed Place.start
  obtain ⟨nodes, derives, rfl⟩ := spells_iff.mp spells
  exact (parse_of_feed feed derives (.inl rfl)).2

/-- The tokens at the front of the source spell the tree. The token behind them, from which `after`
goes on, is the end of the file or a closing brace. -/
structure Program (source : String) (tokens : List Token) (tree : Node) (last : Token)
    (after : Scanner) :
    Prop where
  yielded : (Scanner.ofString source).Yields (tokens ++ [last]) after
  ends : last.kind = .endOfFile ∨ last.isOperator "\x7d" = true
  spells : Spells (words tokens) tree

namespace Program

variable {last : Token} {after : Scanner}

theorem unfinished (program : Program source tokens tree last after) :
    ∀ token ∈ tokens, token.kind ≠ .endOfFile := by
  obtain ⟨nodes, derives, _⟩ := program.spells
  intro token member
  exact derives.unfinished token.word (List.mem_map_of_mem member)

theorem feed (program : Program source tokens tree last after) :
    ∃ tail, (Scanner.ofString source).feed = .prepend tokens tail ∧ tail.sign.Stops := by
  obtain ⟨middle, before, behind⟩ := Scanner.yields_append_iff.mp program.yielded
  refine ⟨middle.feed, before.feed_eq program.unfinished, ?_⟩
  cases behind with
  | more taken _ =>
    rcases program.ends with finished | brace
    · rw [Scanner.feed_of_finish taken finished]
      exact .inl rfl
    · have word := (last.is_operator_iff "\x7d" (by decide)).mp brace
      have unfinished : last.kind ≠ .endOfFile := by
        rw [show last.kind = .operator from congrArg Word.kind word]
        decide
      rw [Scanner.feed_of_token taken unfinished]
      exact .inr (congrArg Sign.word word)

theorem accepted (program : Program source tokens tree last after) : parse source = .ok tree := by
  obtain ⟨tail, feed, stops⟩ := program.feed
  obtain ⟨nodes, derives, rfl⟩ := spells_iff.mp program.spells
  exact (parse_of_feed feed derives stops).2

theorem unique {others : List Token} {other : Node} {otherLast : Token} {otherAfter : Scanner}
    (program : Program source tokens tree last after)
    (second : Program source others other otherLast otherAfter) :
    tokens = others ∧ tree = other := by
  obtain ⟨tail, feed, stops⟩ := program.feed
  obtain ⟨otherTail, otherFeed, otherStops⟩ := second.feed
  obtain ⟨nodes, derives, rfl⟩ := spells_iff.mp program.spells
  obtain ⟨otherNodes, otherDerives, rfl⟩ := spells_iff.mp second.spells
  have read := (parse_of_feed feed derives stops).1
  rw [(parse_of_feed otherFeed otherDerives otherStops).1] at read
  cases read
  rw [feed] at otherFeed
  exact ⟨Feed.prepend_left_cancel otherFeed, rfl⟩

/-- A closing brace continues no lexeme and is continued by none, so it shuts off what is behind
it. -/
theorem replace (program : Program source tokens tree last after)
    (brace : last.isOperator "\x7d" = true) :
    ∃ front, source = front ++ String.ofList after.rest ∧
      ∀ behind, parse (front ++ behind) = .ok tree := by
  have word := (last.is_operator_iff "\x7d" (by decide)).mp brace
  have unfinished : ∀ token ∈ tokens ++ [last], token.kind ≠ .endOfFile := by
    intro token member
    rcases List.mem_append.mp member with early | late
    · exact program.unfinished token early
    · rw [List.mem_singleton.mp late, show last.kind = .operator from congrArg Word.kind word]
      decide
  obtain ⟨front, whole, _, changed⟩ := program.yielded.replace unfinished
  refine ⟨String.ofList front, ?_, ?_⟩
  · rw [← String.ofList_append, ← whole]
    exact String.ofList_toList.symm
  intro behind
  have apart :
      ∀ token ∈ (tokens ++ [last]).getLast?, Parted token.word.text.toList behind.toList := by
    intro token member
    rw [List.getLast?_concat] at member
    cases member
    rw [word]
    exact parted_bracket (show "\x7d" ∈ _ by simp) behind.toList
  obtain ⟨all, place, sameWords, yields⟩ := changed behind.toList Place.start apart
  rw [words_append] at sameWords
  obtain ⟨others, ends, rfl, sameTokens, sameLast⟩ := words_eq_append sameWords
  obtain ⟨other, rfl, otherWord⟩ := words_eq_singleton sameLast
  have changedProgram :
      Program (String.ofList front ++ behind) others tree other ⟨behind.toList, place⟩ := by
    refine ⟨?_, ?_, ?_⟩
    · simpa [Scanner.ofString] using yields
    · exact .inr ((other.is_operator_iff "\x7d" (by decide)).mpr (otherWord.trans word))
    · rw [sameTokens]
      exact program.spells
  exact changedProgram.accepted

end Program

end WhileLang
