import WhileLang.Proofs.CursorIndex
import WhileLang.Proofs.LeftmostFault

/-!
# Spacing

The texts of a source may be laid out anew, with any blanks between them as long as there are some.
Each of them is a lexeme by itself, and a blank continues no lexeme, so the new source has the same
tokens at other places. The parser looks at kinds and texts alone. It comes to the same tree, or it
stops at the same token with the same message.
-/

namespace WhileLang

set_option autoImplicit false

/-- The texts with a gap behind each of them and one before them all. -/
def spread (lead : List Char) (pieces : List (String × List Char)) : List Char :=
  lead ++ pieces.flatMap fun piece => piece.1.toList ++ piece.2

theorem spread_cons (lead gap : List Char) (text : String) (pieces : List (String × List Char)) :
    spread lead ((text, gap) :: pieces) = lead ++ (text.toList ++ spread gap pieces) := by
  simp [spread]

theorem loose_of_separator {char : Char} (separator : char ∈ separators) : isLoose char = true := by
  simp only [separators, List.mem_cons, List.not_mem_nil, or_false] at separator
  rcases separator with rfl | rfl | rfl | rfl <;> decide

theorem loose_spread {gap : List Char} {pieces : List (String × List Char)} (blank : Blank gap)
    (apart : gap = [] → pieces = []) : Loose (spread gap pieces) := by
  cases gap with
  | nil =>
    rw [apart rfl]
    simp [spread, Loose]
  | cons char gap =>
    rintro first ⟨⟩
    exact loose_of_separator (blank char List.mem_cons_self)

theorem shows_spread {spelling : List Word} {lead : List Char} {pieces : List (String × List Char)}
    (written : ∀ word ∈ spelling, word.Written)
    (texts : spelling.map Word.text = pieces.map Prod.fst)
    (blankLead : Blank lead) (blank : ∀ piece ∈ pieces, Blank piece.2)
    (apart : ∀ piece ∈ pieces.dropLast, piece.2 ≠ []) : Shows (spread lead pieces) spelling := by
  induction spelling generalizing lead pieces with
  | nil =>
    rw [List.map_eq_nil_iff.mp texts.symm]
    simpa [spread] using Shows.done blankLead
  | cons word spelling induction =>
    cases pieces with
    | nil => cases texts
    | cons piece pieces =>
      obtain ⟨text, gap⟩ := piece
      simp only [List.map_cons, List.cons.injEq] at texts
      obtain ⟨rfl, others⟩ := texts
      have blankGap : Blank gap := blank _ List.mem_cons_self
      -- Only behind the last text may the gap be empty.
      have closed : gap = [] → pieces = [] := by
        intro empty
        cases pieces with
        | nil => rfl
        | cons next pieces => exact absurd empty (apart _ List.mem_cons_self)
      have later : ∀ piece ∈ pieces.dropLast, piece.2 ≠ [] := by
        intro piece member
        apply apart
        cases pieces with
        | nil => cases member
        | cons next pieces => exact List.mem_cons_of_mem _ member
      rw [spread_cons]
      apply Shows.more blankLead (written word List.mem_cons_self)
      · exact (loose_spread blankGap closed).parted _
      · apply induction _ others blankGap _ later
        · exact fun other member => written other (List.mem_cons_of_mem _ member)
        · exact fun piece member => blank piece (List.mem_cons_of_mem _ member)

theorem filter_map_text (tokens : List Token) :
    tokens.filterMap Token.text = (tokens.map Token.label).filterMap Prod.snd := by
  rw [List.filterMap_map]
  rfl

namespace Scanner

theorem label_of_feed_finish {scanner : Scanner} {last : Token}
    (feed : scanner.feed = .finish last) :
    last.label = (.endOfFile, none) := by
  have blank := blank_of_feed_finish feed
  have found := (feed_of_finish (next_of_blanks blank scanner.place) rfl).symm.trans feed
  cases found
  rfl

theorem labels_of_feed {scanner : Scanner} {tokens : List Token} {last : Token}
    (feed : scanner.feed = .prepend tokens (.finish last)) :
    (∀ word ∈ words tokens, word.Written) ∧
      tokens.map Token.label = (words tokens).map (fun word => (word.kind, some word.text)) ∧
      last.label = (.endOfFile, none) := by
  obtain ⟨stop, yields, finish, unfinished⟩ := yields_of_feed_eq feed
  exact ⟨yields.written unfinished, yields.labels unfinished, label_of_feed_finish finish⟩

end Scanner

/-- Both are accepted with the same tree, or both are refused with the same origin and message. -/
inductive SameVerdict : Except Fault Node → Except Fault Node → Prop where
  | accepted (tree : Node) : SameVerdict (.ok tree) (.ok tree)
  | refused {left right : Fault} (origin : left.cause.origin = right.cause.origin)
      (message : left.cause.message = right.cause.message) :
      SameVerdict (.error left) (.error right)

theorem Expected.report_congr (expected : Expected) {left right : List Token}
    {last otherLast : Token}
    (labels : left.map Token.label = right.map Token.label) (ends : last.label = otherLast.label) :
    SameVerdict (.error (Refusal.fault ⟨expected, .prepend left (.finish last)⟩))
      (.error (Refusal.fault ⟨expected, .prepend right (.finish otherLast)⟩)) := by
  have origins :
      ∀ found other : Token, (expected.cause found).origin = (expected.cause other).origin :=
    fun found other => (expected.origin_cause found).trans (expected.origin_cause other).symm
  cases left with
  | nil =>
    rw [List.map_eq_nil_iff.mp labels.symm]
    exact .refused (origins last otherLast) (expected.message_congr ends)
  | cons token left =>
    cases right with
    | nil => cases labels
    | cons other right =>
      exact .refused (origins token other) (expected.message_congr (List.cons.inj labels).1)

theorem Feed.cut_congr {tokens others front : List Token} {last otherLast : Token} {tail : Feed}
    (labels : tokens.map Token.label = others.map Token.label)
    (cut : prepend tokens (.finish last) = prepend front tail) :
    ∃ more left right, tail = prepend more (.finish last) ∧
      prepend others (.finish otherLast) = prepend left (prepend right (.finish otherLast)) ∧
      left.map Token.label = front.map Token.label ∧
        more.map Token.label = right.map Token.label := by
  obtain ⟨more, rfl, rfl⟩ := prepend_eq_prepend (Nat.zero_le _) cut
  rw [List.map_append] at labels
  obtain ⟨left, right, rfl, same, later⟩ := List.map_eq_append_iff.mp labels.symm
  exact ⟨more, left, right, rfl, prepend_append left right _, same, later.symm⟩

theorem Feed.sign_finish_congr {left right : List Token} {last otherLast : Token}
    (labels : left.map Token.label = right.map Token.label) :
    (prepend left (.finish last)).sign = (prepend right (.finish otherLast)).sign :=
  sign_prepend_congr (words_eq_of_labels labels) rfl

theorem verdict_of_labels {source other : String} {tokens others : List Token}
    {last otherLast : Token}
    (feed : (Scanner.ofString source).feed = .prepend tokens (.finish last))
    (otherFeed : (Scanner.ofString other).feed = .prepend others (.finish otherLast))
    (labels : tokens.map Token.label = others.map Token.label)
    (ends : last.label = otherLast.label) :
    SameVerdict (parse source) (parse other) := by
  cases result : parse source with
  | ok tree =>
    obtain ⟨nodes, front, tail, cut, derives, stops, rfl⟩ := feed_of_parse result
    obtain ⟨more, left, right, rfl, otherCut, same, later⟩ :=
      Feed.cut_congr labels (feed.symm.trans cut)
    rw [← words_eq_of_labels same] at derives
    rw [Feed.sign_finish_congr later] at stops
    have accepted := (parse_of_feed (otherFeed.trans otherCut) derives stops).2
    rw [accepted]
    exact .accepted _
  | error fault =>
    obtain ⟨expected, front, tail, cut, rfl, _, refuses⟩ := refusal_of_parse result
    obtain ⟨more, left, right, rfl, otherCut, same, later⟩ :=
      Feed.cut_congr labels (feed.symm.trans cut)
    have refused := refuses other left _ (otherFeed.trans otherCut) (words_eq_of_labels same)
      (Feed.sign_finish_congr later.symm)
    rw [refused]
    exact expected.report_congr later ends

/-- Layout never matters. The texts of a source that is read to its end, laid out anew with blanks
between them, are read as tokens of the same kinds and texts and get the same verdict. -/
theorem parse_ignores_layout (source : String) (lead : List Char)
    (pieces : List (String × List Char)) (sound : (Scanner.ofString source).readAll.failure = none)
    (texts : (Scanner.ofString source).readAll.tokens.filterMap Token.text = pieces.map Prod.fst)
    (blankLead : Blank lead) (blank : ∀ piece ∈ pieces, Blank piece.2)
    (apart : ∀ piece ∈ pieces.dropLast, piece.2 ≠ []) :
    (Scanner.ofString (.ofList (spread lead pieces))).readAll.failure = none ∧
      (Scanner.ofString (.ofList (spread lead pieces))).readAll.tokens.map Token.label =
        (Scanner.ofString source).readAll.tokens.map Token.label ∧
      SameVerdict (parse source) (parse (.ofList (spread lead pieces))) := by
  rw [(Scanner.read_all_eq_feed _).2] at sound
  rw [(Scanner.read_all_eq_feed _).1] at texts
  obtain ⟨tokens, last, feed⟩ := Feed.exists_finish sound
  obtain ⟨written, labels, ends⟩ := Scanner.labels_of_feed feed
  have spelled : (words tokens).map Word.text = pieces.map Prod.fst := by
    rw [← texts, feed, Feed.tokens_prepend, filter_map_text, List.map_append, labels]
    simp [Feed.tokens, ends]
  have shows := shows_spread written spelled blankLead blank apart
  obtain ⟨others, otherLast, sameWords, otherFeed⟩ := shows.feed Place.start
  obtain ⟨_, otherLabels, otherEnds⟩ := Scanner.labels_of_feed otherFeed
  have start :
      Scanner.ofString (.ofList (spread lead pieces)) = ⟨spread lead pieces, Place.start⟩ := by
    rw [Scanner.ofString, String.toList_ofList]
  have sameLabels : tokens.map Token.label = others.map Token.label := by
    rw [labels, otherLabels, sameWords]
  rw [← start] at otherFeed
  refine ⟨?_, ?_, ?_⟩
  · rw [(Scanner.read_all_eq_feed _).2, otherFeed]
    exact Feed.failure_prepend_finish others otherLast
  · rw [(Scanner.read_all_eq_feed _).1, (Scanner.read_all_eq_feed _).1, feed, otherFeed,
      Feed.tokens_prepend, Feed.tokens_prepend, List.map_append, List.map_append, sameLabels]
    simp [Feed.tokens, ends, otherEnds]
  · exact verdict_of_labels feed otherFeed sameLabels (ends.trans otherEnds.symm)

/-- A numeral and a name may touch. They are refused in the same words if they do not. -/
theorem parse_ignores_layout_touching :
    (Scanner.ofString "!12a==b;").readAll.failure = none ∧
      SameVerdict (parse "!12a==b;") (parse "\n!\t12 a\r\n== b ;") := by
  have sound : (Scanner.ofString "!12a==b;").readAll.failure = none := by cbv
  have laid : String.ofList (spread ['\n'] [("!", ['\t']), ("12", [' ']), ("a", ['\r', '\n']),
      ("==", [' ']), ("b", [' ']), (";", [])]) = "\n!\t12 a\r\n== b ;" := rfl
  have same :=
    parse_ignores_layout "!12a==b;" ['\n'] [("!", ['\t']), ("12", [' ']), ("a", ['\r', '\n']),
      ("==", [' ']), ("b", [' ']), (";", [])] sound (by cbv) (by simp [Blank, separators])
    (by simp [Blank, separators]) (by simp)
  rw [laid] at same
  exact ⟨sound, same.2.2⟩

end WhileLang
