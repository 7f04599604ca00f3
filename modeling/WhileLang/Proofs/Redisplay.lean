import WhileLang.Proofs.Image
import WhileLang.Proofs.Regrouping

/-!
# Reading a displayed tree

The text of a tree shows the words of the tree it is regrouped to. So what is displayed and read
again is the same tree exactly if regrouping leaves it alone.
-/

namespace WhileLang

set_option autoImplicit false

open Node (Role Fits)
open Word (keyword symbol)

/-- In front of anything that leaves its last lexeme alone, the text shows these words. -/
def Displays (text : List Char) (spelling : List Word) : Prop :=
  ∀ rest more, Loose rest → Shows rest more → Shows (text ++ rest) (spelling ++ more)

theorem displays_word {word : Word} (written : word.Written) :
    Displays word.text.toList [word] := by
  intro rest more loose shows
  exact .word written (loose.parted _) shows

theorem show_number_infinite {value : Float} (positive : isNegative value = false)
    (infinite : magnitude value = Magnitude.infinity) : showNumber value = "inf" := by
  rw [showNumber, NumberStyle.write]
  dsimp only
  rw [if_neg (by omega), if_pos infinite, positive]
  rfl

theorem displays_literal {value : Float} (whole : IsWhole value) :
    ∃ spelling, Displays (showNumber value).toList spelling ∧
      Derives (.factor (Node.literal value).regroup) spelling := by
  rw [Node.regroup]
  by_cases infinite : magnitude value = Magnitude.infinity
  · rw [if_pos infinite, show_number_infinite whole.1 infinite]
    have written : (Word.name "inf").Written := by decide
    exact ⟨[.name "inf"], displays_word written, .reference "inf"⟩
  · obtain ⟨number, text, reads⟩ := show_number_whole whole infinite
    have literal := Derives.literal (String.ofList (Nat.toDigits 10 number))
    rw [String.toList_ofList, reads] at literal
    have displays := displays_word (written_number number)
    rw [if_neg infinite, text]
    exact ⟨_, displays, literal⟩

theorem display_head {node : Node} (fits : Fits .value node) :
    ∃ first rest, node.display.toList = first :: rest ∧ first ≠ '=' := by
  cases fits with
  | ifThen placed _ _ => exact absurd rfl placed
  | ifElse placed _ _ _ => exact absurd rfl placed
  | whileLoop placed _ _ => exact absurd rfl placed
  | print placed _ => exact absurd rfl placed
  | assign _ _ =>
    simp only [Node.display, String.toList_append]
    exact ⟨'(', _, rfl, by decide⟩
  | binary op _ _ =>
    simp only [Node.display, String.toList_append]
    exact ⟨'(', _, rfl, by decide⟩
  | unary op _ =>
    simp only [Node.display, String.toList_append]
    exact ⟨'(', _, rfl, by decide⟩
  | reference named =>
    obtain ⟨⟨first, rest, text, start, _⟩, _⟩ := named
    refine ⟨first, rest, text, ?_⟩
    rintro rfl
    exact absurd start (by decide)
  | @literal _ value whole =>
    by_cases infinite : magnitude value = Magnitude.infinity
    · rw [Node.display, show_number_infinite whole.1 infinite]
      exact ⟨'i', _, rfl, by decide⟩
    · obtain ⟨number, text, _⟩ := show_number_whole whole infinite
      rw [Node.display, text, String.toList_ofList]
      have nonempty : Nat.toDigits 10 number ≠ [] := Nat.toDigits_ne_nil
      obtain ⟨first, rest, split⟩ := List.exists_cons_of_ne_nil nonempty
      refine ⟨first, rest, split, ?_⟩
      rintro rfl
      have digit := Nat.isDigit_of_mem_toDigits (by decide) (by decide) (split ▸ List.mem_cons_self)
      exact absurd digit (by decide)

/-- No value is displayed with `=` in front, so `!` before it is not taken for `!=`. -/
theorem display_parted {node : Node} (fits : Fits .value node) (op : UnaryOp) (rest : List Char) :
    Parted op.symbol.toList (node.display.toList ++ rest) := by
  obtain ⟨first, later, text, different⟩ := display_head fits
  rw [text]
  rintro char ⟨⟩
  cases op <;> simp [UnaryOp.symbol, continues, isNameStart, isDigit, isOperatorPair, different]

theorem displays_value {node : Node} (fits : Fits .value node) :
    ∃ spelling, Displays node.display.toList spelling ∧
      Derives (.factor node.regroup) spelling := by
  induction node using Node.tree_induction with
  | block statements _ => cases fits.not_statement
  | ifThen condition positive _ _ => cases fits.not_statement
  | ifElse condition positive negative _ _ _ => cases fits.not_statement
  | whileLoop condition body _ _ => cases fits.not_statement
  | print expression _ => cases fits.not_statement
  | assign name expression induction =>
    cases fits with
    | assign named inner =>
      obtain ⟨spelling, displays, derives⟩ := induction inner
      refine ⟨_, ?_, .group (.assign derives.of_factor)⟩
      intro rest more loose shows
      have closing := Shows.bracket (show ")" ∈ _ by simp) shows
      have value := displays _ _ (loose_bracket (by simp) rest) closing
      have equals := Shows.spaced (show (Word.symbol "=").Written by decide) value
      have target := Shows.spaced ((written_name_iff name).mpr named) equals
      have opening := Shows.bracket (show "(" ∈ _ by simp) target
      simpa [Node.display, Word.name, Word.symbol] using opening
  | binary op left right first second =>
    cases fits with
    | binary _ fitsLeft fitsRight =>
      obtain ⟨front, displaysLeft, derivesLeft⟩ := first fitsLeft
      obtain ⟨back, displaysRight, derivesRight⟩ := second fitsRight
      have left := (Derives.unsigned derivesLeft).operand_of_unary op.level
      have right := Derives.single ((Derives.unsigned derivesRight).operand_of_unary op.level)
      refine ⟨_, ?_, .group (.of_binary (.apply op left right))⟩
      intro rest more loose shows
      have closing := Shows.bracket (show ")" ∈ _ by simp) shows
      have behind := displaysRight _ _ (loose_bracket (by simp) rest) closing
      have operator := Shows.spaced (written_operator op) behind
      have before := displaysLeft _ _ (loose_space _) operator.space
      have opening := Shows.bracket (show "(" ∈ _ by simp) before
      simpa [Node.display, Word.symbol] using opening
  | unary op operand induction =>
    cases fits with
    | unary _ inner =>
      obtain ⟨spelling, displays, derives⟩ := induction inner
      refine ⟨_, ?_, .group (.of_unary (.signed op (.unsigned derives)))⟩
      intro rest more loose shows
      have closing := Shows.bracket (show ")" ∈ _ by simp) shows
      have value := displays _ _ (loose_bracket (by simp) rest) closing
      have operator := Shows.word (written_sign op) (display_parted inner op _) value
      have opening := Shows.bracket (show "(" ∈ _ by simp) operator
      simpa [Node.display, Word.symbol] using opening
  | reference name =>
    cases fits with
    | reference named =>
      exact ⟨[.name name], displays_word ((written_name_iff name).mpr named), .reference name⟩
  | literal value =>
    cases fits with
    | literal whole => exact displays_literal whole

theorem displays_evaluation {node : Node} (fits : Fits .value node) :
    ∃ spelling, Displays node.displayStatement.toList spelling ∧ Bare node.regroup spelling := by
  obtain ⟨spelling, displays, derives⟩ := displays_value fits
  have expression : node.regroup.isStatement = false := by
    rw [Node.is_statement_regroup]
    exact fits.not_statement
  refine ⟨_, ?_, .simple (.evaluate derives.of_factor) (Node.is_open_of_not_statement expression)⟩
  intro rest more loose shows
  have closing := Shows.bracket (show ";" ∈ _ by simp) shows
  have value := displays _ _ (loose_bracket (by simp) rest) closing
  simpa [Node.displayStatement, Node.closed, fits.not_statement] using value

theorem loose_display_all {rest : List Char} (loose : Loose rest) (nodes : List Node) :
    Loose ((Node.displayAll nodes).toList ++ rest) := by
  cases nodes with
  | nil => simpa [Node.displayAll] using loose
  | cons first others => simpa [Node.displayAll] using loose_space _

theorem displays_all {nodes : List Node} (elements : ∀ node ∈ nodes, node.isBlock = false)
    (displayed : ∀ node ∈ nodes,
      ∃ spelling, Displays node.displayStatement.toList spelling ∧ Bare node.regroup spelling) :
    ∃ spelling, Displays (Node.displayAll nodes).toList spelling ∧
      Derives (.statements (Node.regroupAll nodes)) spelling := by
  induction nodes with
  | nil =>
    refine ⟨[], ?_, .none⟩
    intro rest more _ shows
    simpa [Node.displayAll] using shows
  | cons first others induction =>
    rw [List.forall_mem_cons] at elements displayed
    obtain ⟨front, displays, bare⟩ := displayed.1
    obtain ⟨back, displaysOthers, derivesOthers⟩ := induction elements.2 displayed.2
    have plain : first.regroup.isBlock = false := by
      rw [Node.is_block_regroup]
      exact elements.1
    refine ⟨front ++ back, ?_, .more (bare.derives.2 plain) derivesOthers⟩
    intro rest more loose shows
    have later := displaysOthers rest more loose shows
    have whole := (displays _ _ (loose_display_all loose others) later).space
    simpa [Node.displayAll, Node.displayStatement] using whole

theorem Shows.condition {text rest : List Char} {test more : List Word} {keyword : String}
    (written : (Word.keyword keyword).Written) (displays : Displays text test)
    (shows : Shows rest more) :
    Shows (keyword.toList ++ " (".toList ++ text ++ ") ".toList ++ rest)
      (Word.keyword keyword :: symbol "(" :: test ++ symbol ")" :: more) := by
  have closing := Shows.bracket (show ")" ∈ _ by simp) shows.space
  have value := displays _ _ (loose_bracket (by simp) _) closing
  have opening := Shows.bracket (show "(" ∈ _ by simp) value
  have whole := Shows.spaced written opening
  simpa [Word.keyword] using whole

theorem displays_statement {role : Role} {node : Node} (fits : Fits role node)
    (placed : role ≠ .value) :
    ∃ spelling, Displays node.displayStatement.toList spelling ∧ Bare node.regroup spelling := by
  induction node using Node.tree_induction generalizing role with
  | block statements induction =>
    cases fits with
    | block plural elements =>
      have flat : ∀ node ∈ statements, node.isBlock = false :=
        fun node member => (elements node member).not_block
      obtain ⟨inner, displays, derives⟩ := displays_all flat fun node member =>
        induction node member (elements node member) (by simp)
      have count : (Node.regroupAll statements).length ≠ 1 := by
        rwa [Node.regroup_all_eq_map, List.length_map]
      refine ⟨_, ?_, .braces count derives⟩
      intro rest more _ shows
      have closing := (Shows.bracket (show "\x7d" ∈ _ by simp) shows).space
      have body := displays _ _ (loose_space _) closing
      have opening := Shows.bracket (show "\x7b" ∈ _ by simp) body
      simpa [Node.displayStatement, Node.closed, Node.isStatement, Node.display] using opening
  | ifThen condition positive _ induction =>
    cases fits with
    | ifThen _ test first =>
      obtain ⟨head, displaysTest, derivesTest⟩ := displays_value test
      obtain ⟨body, displays, bare⟩ := induction first (by simp)
      refine ⟨_, ?_, .ifThen derivesTest.of_factor bare⟩
      intro rest more loose shows
      have whole := Shows.condition (show (keyword "if").Written by decide) displaysTest
        (displays rest more loose shows)
      simpa [Node.displayStatement, Node.closed, Node.isStatement, Node.display] using whole
  | ifElse condition positive negative _ positives negatives =>
    cases fits with
    | ifElse _ test first second =>
      obtain ⟨head, displaysTest, derivesTest⟩ := displays_value test
      obtain ⟨front, displaysFirst, bareFirst⟩ := positives first (by simp)
      obtain ⟨back, displaysSecond, bareSecond⟩ := negatives second (by simp)
      refine ⟨keyword "if" :: symbol "(" :: head ++ symbol ")" :: front ++
        keyword "else" :: back, ?_, ?_⟩
      · intro rest more loose shows
        have other := Shows.spaced (show (keyword "else").Written by decide)
          (displaysSecond rest more loose shows)
        have body := displaysFirst _ _ (loose_space _) other.space
        have whole := Shows.condition (show (keyword "if").Written by decide) displaysTest body
        simpa [Node.displayStatement, Node.closed, Node.isStatement, Node.display, keyword]
          using whole
      · rw [Node.regroup]
        split
        · rename_i opened
          have joined := Bare.ifThen derivesTest.of_factor (bareFirst.attach opened bareSecond)
          simpa using joined
        · rename_i closed
          exact .ifElse derivesTest.of_factor bareFirst (Bool.not_eq_true _ ▸ closed) bareSecond
  | whileLoop condition body _ induction =>
    cases fits with
    | whileLoop _ test inner =>
      obtain ⟨head, displaysTest, derivesTest⟩ := displays_value test
      obtain ⟨body, displays, bare⟩ := induction inner (by simp)
      refine ⟨_, ?_, .whileLoop derivesTest.of_factor bare⟩
      intro rest more loose shows
      have whole := Shows.condition (show (keyword "while").Written by decide) displaysTest
        (displays rest more loose shows)
      simpa [Node.displayStatement, Node.closed, Node.isStatement, Node.display] using whole
  | print expression _ =>
    cases fits with
    | print _ inner =>
      obtain ⟨spelling, displays, derives⟩ := displays_value inner
      refine ⟨_, ?_, .simple (.print derives.of_factor) rfl⟩
      intro rest more _ shows
      have closing := Shows.bracket (show ";" ∈ _ by simp) shows
      have value := displays _ _ (loose_bracket (by simp) rest) closing
      have whole := Shows.spaced (show (keyword "print").Written by decide) value
      simpa [Node.displayStatement, Node.closed, Node.isStatement, Node.display, Word.keyword]
        using whole
  | assign name expression _ => exact displays_evaluation (fits.expression rfl .value)
  | binary op left right _ _ => exact displays_evaluation (fits.expression rfl .value)
  | unary op operand _ => exact displays_evaluation (fits.expression rfl .value)
  | reference name => exact displays_evaluation (fits.expression rfl .value)
  | literal value => exact displays_evaluation (fits.expression rfl .value)

/-- What a displayed tree is read as, where it is the body of a loop. -/
theorem parse_display {tree : Node} (shaped : tree.Shaped) :
    parse ("while (1) " ++ tree.displayStatement) =
      .ok (.whileLoop (.literal 1) tree.regroup) := by
  obtain ⟨spelling, displays, bare⟩ :=
    displays_statement (Node.shaped_iff_fits.mp shaped) (by simp)
  have derivesOne := Derives.literal "1"
  rw [show numeralValue "1".toList = 1 by decide +kernel] at derivesOne
  have looped := Bare.whileLoop derivesOne.of_factor bare
  apply parse_of_shows
  · have displaysOne := displays_word (show (Word.numeral "1").Written by decide)
    have body := displays [] [] (by simp [Loose]) (.done (by simp [Blank]))
    have whole := Shows.condition (show (keyword "while").Written by decide) displaysOne body
    simpa [Word.numeral] using whole
  · have program := Derives.more (looped.derives.2 rfl) .none
    rw [List.append_nil] at program
    exact ⟨_, program, .single _⟩

/-- The body of a loop is displayed and read again as itself exactly if none of its branches takes
the `else` of another and none of its literals is infinite. -/
theorem redisplay_iff (source : String) (tree : Node) (accepted : parse source = .ok tree) :
    parse ("while (1) " ++ tree.displayStatement) = .ok (.whileLoop (.literal 1) tree) ↔
      tree.Settled := by
  rw [parse_display (shaped_of_parse accepted), Except.ok.injEq, Node.whileLoop.injEq]
  rw [← Node.regroup_eq_self_iff]
  constructor
  · intro same
    exact same.2
  · intro same
    exact ⟨rfl, same⟩

/-- Braces keep the inner `if` from its `else`; the text has none. -/
theorem redisplay_iff_stolen_else :
    parse "if (x) \x7b if (y) z; \x7d else w;" =
        .ok (.ifElse (.reference "x") (.ifThen (.reference "y") (.reference "z"))
          (.reference "w")) ∧
      parse ("while (1) " ++
          (Node.ifElse (.reference "x") (.ifThen (.reference "y") (.reference "z"))
            (.reference "w")).displayStatement) ≠
        .ok (.whileLoop (.literal 1)
          (.ifElse (.reference "x") (.ifThen (.reference "y") (.reference "z"))
            (.reference "w"))) := by
  have accepted : parse "if (x) \x7b if (y) z; \x7d else w;" =
      .ok (.ifElse (.reference "x") (.ifThen (.reference "y") (.reference "z"))
        (.reference "w")) := by
    cbv
  refine ⟨accepted, ?_⟩
  intro again
  have settled := (redisplay_iff _ _ accepted).mp again
  have closed := settled.closed _ _ _ .top
  cases closed

end WhileLang
