import WhileLang.Proofs.Descent

/-!
# Every spelling is read

Words that spell a phrase are read as that phrase, wherever they stand in front of a sign that
cannot continue them. The induction is on the derivation; what the sign must not be depends on the
phrase and is said in `Phrase.Read`.
-/

namespace WhileLang

set_option autoImplicit false

namespace Sign

def Closes (sign : Sign) : Prop :=
  sign = .word (.symbol ")") ∨ sign = .word (.symbol ";")

/-- An operation of this level ends before this sign, since no operator of the level or of a tighter
one stands there. -/
structure Ends (level : Level) (sign : Sign) : Prop where
  sound : ∀ cause, sign ≠ .fault cause
  other : ∀ word tighter, sign = .word word → tighter.rank ≤ level.rank →
    word.operator? tighter = none

/-- A branch ends before this sign, since no `else` stands there. -/
structure Detaches (sign : Sign) : Prop where
  sound : ∀ cause, sign ≠ .fault cause
  other : sign ≠ .word (.keyword "else")

theorem Closes.sound {sign : Sign} (closes : sign.Closes) (cause : Cause) :
    sign ≠ .fault cause := by
  rcases closes with rfl | rfl <;> simp

theorem Closes.ends {sign : Sign} (closes : sign.Closes) : sign.Ends .logical := by
  refine ⟨closes.sound, ?_⟩
  intro word tighter same _
  rcases closes with rfl | rfl <;> cases same <;> cases tighter <;> rfl

theorem Ends.tighter {level tighter : Level} {sign : Sign} (ends : sign.Ends level)
    (found : level.tighter? = some tighter) : sign.Ends tighter := by
  refine ⟨ends.sound, ?_⟩
  intro word other same bound
  have rank := Level.rank_tighter found
  exact ends.other word other same (by omega)

theorem ends_operator (op : BinaryOp) {tighter : Level} (found : op.level.tighter? = some tighter) :
    (Sign.word (.symbol op.symbol)).Ends tighter := by
  refine ⟨by simp, ?_⟩
  intro word other same bound
  cases same
  have rank := Level.rank_tighter found
  rw [Word.operator_symbol, if_neg]
  rintro rfl
  omega

theorem Stops.detaches {sign : Sign} (stops : sign.Stops) : sign.Detaches := by
  rcases stops with rfl | rfl
  · exact ⟨by simp, by simp⟩
  · exact ⟨by simp, by simp [Word.symbol, Word.keyword]⟩

end Sign

/-- Feeds that start with the spelling, in front of a sign that does not continue it, are read as
the phrase. -/
def Phrase.Read : Phrase → List Word → Prop
  | statements nodes, spelling => ∀ (tokens : List Token) (tail : Feed), words tokens = spelling →
      tail.sign.Stops → Descent.statements (.prepend tokens tail) = .ok (nodes, tail)
  | block dangling node, spelling =>
    ∀ (tokens : List Token) (tail : Feed), words tokens = spelling →
      (dangling = true → tail.sign.Detaches) →
        Descent.block (.prepend tokens tail) = .ok (node, tail)
  | statement dangling node, spelling => ∀ (tokens : List Token) (tail : Feed),
      words tokens = spelling → (dangling = true → tail.sign.Detaches) →
      Descent.statement (.prepend tokens tail) = .ok (node, tail)
  | expression node, spelling => ∀ (tokens : List Token) (tail : Feed), words tokens = spelling →
      tail.sign.Closes → Descent.expression (.prepend tokens tail) = .ok (node, tail)
  | binary level node, spelling => ∀ (tokens : List Token) (tail : Feed), words tokens = spelling →
      tail.sign.Ends level → Descent.binary level (.prepend tokens tail) = .ok (node, tail)
  | unary node, spelling => ∀ (tokens : List Token) (tail : Feed), words tokens = spelling →
      Descent.unary (.prepend tokens tail) = .ok (node, tail)
  | factor node, spelling => ∀ (tokens : List Token) (tail : Feed), words tokens = spelling →
      Descent.factor (.prepend tokens tail) = .ok (node, tail)

/-- Operations are what an expression is made of if it assigns nothing. -/
def Phrase.isOperation : Phrase → Bool
  | binary _ _ | unary _ | factor _ => true
  | _ => false

theorem Phrase.operand_is_operation (level : Level) (node : Node) :
    (Phrase.operand level node).isOperation = true := by
  cases level <;> rfl

theorem Derives.not_assigned {phrase : Phrase} {spelling : List Word}
    (derives : Derives phrase spelling) (operation : phrase.isOperation = true) (text : String)
    (rest : List Word) : spelling ≠ .name text :: .symbol "=" :: rest := by
  induction derives generalizing rest with
  | none | more | braces | plain | print | ifThen | ifElse | whileLoop | evaluate | assign
  | value => cases operation
  | apply op first second left =>
    intro same
    obtain ⟨word, others, rfl, _⟩ := first.opens (Phrase.operand_ne_statements _ _)
    cases others with
    | nil =>
      simp only [List.cons_append, List.nil_append, List.cons.injEq, Word.symbol,
        Word.mk.injEq] at same
      revert same
      cases op with
      | logical op => cases op <;> simp [BinaryOp.symbol, LogicalOp.symbol]
      | comparison op => cases op <;> simp [BinaryOp.symbol, ComparisonOp.symbol]
      | arithmetic op => cases op <;> simp [BinaryOp.symbol, ArithmeticOp.symbol]
      | term op => cases op <;> simp [BinaryOp.symbol, TermOp.symbol]
    | cons second others =>
      simp only [List.cons_append, List.cons.injEq] at same
      exact left (Phrase.operand_is_operation _ _) others (by rw [same.1, same.2.1])
  | single body induction => exact induction (Phrase.operand_is_operation _ _) rest
  | signed op body => simp [Word.symbol, Word.name]
  | unsigned body induction => exact induction rfl rest
  | reference name => simp
  | literal digits => simp
  | group body => simp [Word.symbol, Word.name]

namespace Word

variable {word : Word}

theorem unary_operator_of_opens_factor (opens : word.opensFactor = true) :
    word.unaryOperator? = none := by
  simp only [opensFactor, Bool.or_eq_true, decide_eq_true_eq] at opens
  rcases opens with (kind | kind) | rfl
  · simp [unaryOperator?, kind]
  · simp [unaryOperator?, kind]
  · rfl

theorem kind_of_opens_expression (opens : word.opensExpression = true) : word.kind ≠ .keyword := by
  simp only [opensExpression, opensFactor, Bool.or_eq_true, decide_eq_true_eq] at opens
  rcases opens with (((kind | kind) | rfl) | rfl) | rfl
  · simp [kind]
  · simp [kind]
  · decide
  · decide
  · decide

theorem opening_of_opens_expression (opens : word.opensExpression = true) :
    word.opening? = none := by
  have other : ∀ text, word ≠ keyword text := by
    rintro text rfl
    exact kind_of_opens_expression opens rfl
  rw [opening?, if_neg (other _), if_neg (other _), if_neg (other _)]

theorem ne_of_opens_statement (opens : word.opensStatement = true) :
    word ≠ symbol "\x7b" ∧ word ≠ symbol "\x7d" ∧ word ≠ keyword "else" := by
  refine ⟨?_, ?_, ?_⟩ <;> rintro rfl <;> revert opens <;> decide

end Word

namespace Phrase

open Descent Word

theorem read_reference (text : String) : (factor (.reference text)).Read [name text] := by
  intro tokens tail spelled
  obtain ⟨token, rfl, word⟩ := words_eq_singleton spelled
  have selected : token.word.operand? = some (.name text) := by
    rw [word]
    rfl
  rw [factor_eq, Feed.prepend_cons, accept_bind_some _ selected]
  rfl

theorem read_literal (digits : String) :
    (factor (.literal (numeralValue digits.toList))).Read [numeral digits] := by
  intro tokens tail spelled
  obtain ⟨token, rfl, word⟩ := words_eq_singleton spelled
  have selected : token.word.operand? = some (.numeral digits) := by
    rw [word]
    rfl
  rw [factor_eq, Feed.prepend_cons, accept_bind_some _ selected]
  rfl

variable {node left right test positive negative : Node} {nodes : List Node} {dangling : Bool}
  {spelling front back first second : List Word}

theorem read_group (body : (expression node).Read spelling) :
    (factor node).Read (symbol "(" :: spelling ++ [symbol ")"]) := by
  intro tokens tail spelled
  obtain ⟨opening, others, rfl, word, later⟩ := words_eq_cons spelled
  obtain ⟨inner, last, rfl, innerWords, lastWords⟩ := words_eq_append later
  obtain ⟨closing, rfl, closingWord⟩ := words_eq_singleton lastWords
  have selected : opening.word.operand? = some .group := by
    rw [word]
    rfl
  have read := body inner (.token closing tail) innerWords (.inl (congrArg Sign.word closingWord))
  rw [factor_eq, Feed.prepend_cons, accept_bind_some _ selected, Feed.prepend_append]
  exact (bind_ok read).trans (pass_bind_some tail closingWord)

theorem read_signed (op : UnaryOp) (body : (unary node).Read spelling) :
    (unary (.unary op node)).Read (symbol op.symbol :: spelling) := by
  intro tokens tail spelled
  obtain ⟨token, others, rfl, word, later⟩ := words_eq_cons spelled
  have selected : token.word.unaryOperator? = some op := by
    rw [word, unary_operator_symbol]
  rw [unary_eq, Feed.prepend_cons, accept_bind_some _ selected]
  exact bind_ok (body others tail later)

theorem read_unsigned (derives : Derives (.factor node) spelling)
    (body : (factor node).Read spelling) :
    (unary node).Read spelling := by
  intro tokens tail spelled
  obtain ⟨word, rest, rfl, opens⟩ := derives.opens (by simp)
  obtain ⟨token, others, rfl, same, later⟩ := words_eq_cons spelled
  have selected : token.word.unaryOperator? = none := by
    rw [same]
    exact unary_operator_of_opens_factor opens
  rw [unary_eq, Feed.prepend_cons, accept_bind_none _ selected]
  exact body (token :: others) tail spelled

theorem read_operand {level : Level} (body : (operand level node).Read spelling)
    (tokens : List Token) (tail : Feed) (spelled : words tokens = spelling)
    (ends : ∀ tighter, level.tighter? = some tighter → tail.sign.Ends tighter) :
    Descent.operand level (.prepend tokens tail) = .ok (node, tail) := by
  cases level with
  | logical => exact body tokens tail spelled (ends .comparison rfl)
  | comparison => exact body tokens tail spelled (ends .arithmetic rfl)
  | arithmetic => exact body tokens tail spelled (ends .term rfl)
  | term => exact body tokens tail spelled

theorem read_single {level : Level} (body : (operand level node).Read spelling) :
    (binary level node).Read spelling := by
  intro tokens tail spelled ends
  have read := read_operand body tokens tail spelled fun tighter found => ends.tighter found
  rw [binary_eq, bind_ok read]
  cases tail with
  | token token rest =>
    have selected := ends.other token.word level rfl (Nat.le_refl _)
    rw [accept_bind_none _ selected]
    rfl
  | finish token => rfl
  | fault fault => exact absurd rfl (ends.sound fault.cause)

theorem read_apply (op : BinaryOp) (operand : (operand op.level left).Read front)
    (other : (binary op.level right).Read back) :
    (binary op.level (.binary op left right)).Read (front ++ symbol op.symbol :: back) := by
  intro tokens tail spelled ends
  obtain ⟨inner, later, rfl, innerWords, laterWords⟩ := words_eq_append spelled
  obtain ⟨token, last, rfl, word, lastWords⟩ := words_eq_cons laterWords
  have ended : ∀ tighter, op.level.tighter? = some tighter →
      (Feed.token token (.prepend last tail)).sign.Ends tighter := by
    intro tighter found
    rw [Feed.sign, word]
    exact Sign.ends_operator op found
  have read := read_operand operand inner (.token token (.prepend last tail)) innerWords ended
  have selected : token.word.operator? op.level = some op := by
    rw [word, operator_symbol, if_pos rfl]
  rw [binary_eq, Feed.prepend_append, Feed.prepend_cons, bind_ok read, accept_bind_some _ selected]
  exact bind_ok (other last tail lastWords ends)

theorem read_assign {target : String} (body : (expression node).Read spelling) :
    (expression (.assign target node)).Read (name target :: symbol "=" :: spelling) := by
  intro tokens tail spelled closes
  obtain ⟨token, later, rfl, word, laterWords⟩ := words_eq_cons spelled
  obtain ⟨equals, others, rfl, equalsWord, othersWords⟩ := words_eq_cons laterWords
  have named : token.kind = .identifier := congrArg Word.kind word
  have text : token.word.text = target := congrArg Word.text word
  rw [expression_eq, Feed.prepend_cons, Feed.prepend_cons, target_bind_some named equalsWord, text]
  exact bind_ok (body others tail othersWords closes)

/-- A name is not taken for an assignment unless `=` stands behind it. -/
theorem read_value (derives : Derives (.binary .logical node) spelling)
    (body : (binary .logical node).Read spelling) : (expression node).Read spelling := by
  intro tokens tail spelled closes
  obtain ⟨first, rest, rfl, _⟩ := derives.opens (by simp)
  obtain ⟨token, others, rfl, word, later⟩ := words_eq_cons spelled
  rw [expression_eq, Feed.prepend_cons]
  have read := body (token :: others) tail spelled closes.ends
  by_cases named : token.kind = .identifier
  · refine (target_bind_none named ?_ ?_).trans read
    · cases others with
      | nil =>
        rw [Feed.prepend_nil]
        rcases closes with sign | sign <;> rw [sign] <;> decide
      | cons other others =>
        intro same
        refine derives.not_assigned rfl token.word.text (words others) ?_
        rw [← spelled, words_cons, words_cons, Token.name_word named, Sign.word.inj same]
    · intro fault broken
      cases others with
      | nil => exact closes.sound fault.cause (by rw [← Feed.prepend_nil tail, broken]; rfl)
      | cons other others => cases broken
  · exact (target_bind_missing named).trans read

theorem read_condition (body : (expression test).Read spelling) (tokens : List Token) (tail : Feed)
    (spelled : words tokens = symbol "(" :: spelling ++ [symbol ")"]) :
    condition (.prepend tokens tail) = .ok (test, tail) := by
  obtain ⟨opening, others, rfl, word, later⟩ := words_eq_cons spelled
  obtain ⟨inner, last, rfl, innerWords, lastWords⟩ := words_eq_append later
  obtain ⟨closing, rfl, closingWord⟩ := words_eq_singleton lastWords
  have read := body inner (.token closing tail) innerWords (.inl (congrArg Sign.word closingWord))
  rw [condition_eq, Feed.prepend_cons, pass_bind_some _ word, Feed.prepend_append]
  exact (bind_ok read).trans (pass_bind_some tail closingWord)

theorem read_closed (wrap : Node → Node) (body : (expression node).Read spelling)
    (tokens : List Token) (tail : Feed) (spelled : words tokens = spelling ++ [symbol ";"]) :
    (Descent.expression >>= fun node => pass ";" >>= fun _ => Pure.pure (wrap node))
      (.prepend tokens tail) = .ok (wrap node, tail) := by
  obtain ⟨inner, last, rfl, innerWords, lastWords⟩ := words_eq_append spelled
  obtain ⟨closing, rfl, closingWord⟩ := words_eq_singleton lastWords
  have read := body inner (.token closing tail) innerWords (.inr (congrArg Sign.word closingWord))
  rw [Feed.prepend_append]
  exact (bind_ok read).trans (pass_bind_some tail closingWord)

theorem read_print (body : (expression node).Read spelling) :
    (statement false (.print node)).Read (keyword "print" :: spelling ++ [symbol ";"]) := by
  intro tokens tail spelled _
  obtain ⟨token, others, rfl, word, later⟩ := words_eq_cons spelled
  have selected : token.word.opening? = some .print := by
    rw [word]
    rfl
  rw [statement_eq, Feed.prepend_cons, accept_bind_some _ selected]
  exact read_closed .print body others tail later

theorem read_evaluate (derives : Derives (.expression node) spelling)
    (body : (expression node).Read spelling) :
    (statement false node).Read (spelling ++ [symbol ";"]) := by
  intro tokens tail spelled _
  obtain ⟨first, rest, rfl, opens⟩ := derives.opens (by simp)
  obtain ⟨token, others, rfl, word, later⟩ := words_eq_cons spelled
  have selected : token.word.opening? = none := by
    rw [word]
    exact opening_of_opens_expression opens
  have plain :
      ¬Option.any (fun word : Word => decide (word.kind = .keyword)) (some token.word) = true := by
    rw [word]
    simpa using kind_of_opens_expression opens
  rw [statement_eq, Feed.prepend_cons, accept_bind_none _ selected]
  dsimp only
  rw [look_bind_token, if_neg plain]
  exact read_closed id body (token :: others) tail spelled

theorem read_while (head : (expression test).Read first)
    (body : (block dangling node).Read second) :
    (statement dangling (.whileLoop test node)).Read
      (keyword "while" :: symbol "(" :: first ++ symbol ")" :: second) := by
  intro tokens tail spelled detaches
  obtain ⟨token, others, rfl, word, later⟩ := words_eq_cons spelled
  have split : words others = (symbol "(" :: first ++ [symbol ")"]) ++ second := by
    rw [later]
    simp
  obtain ⟨inner, last, rfl, innerWords, lastWords⟩ := words_eq_append split
  have selected : token.word.opening? = some .loop := by
    rw [word]
    rfl
  have read := read_condition head inner (.prepend last tail) innerWords
  rw [statement_eq, Feed.prepend_cons, accept_bind_some _ selected, Feed.prepend_append]
  exact (bind_ok read).trans (bind_ok (body last tail lastWords detaches))

theorem read_if_then (head : (expression test).Read first)
    (body : (block dangling positive).Read second) :
    (statement true (.ifThen test positive)).Read
      (keyword "if" :: symbol "(" :: first ++ symbol ")" :: second) := by
  intro tokens tail spelled detaches
  obtain ⟨token, others, rfl, word, later⟩ := words_eq_cons spelled
  have split : words others = (symbol "(" :: first ++ [symbol ")"]) ++ second := by
    rw [later]
    simp
  obtain ⟨inner, last, rfl, innerWords, lastWords⟩ := words_eq_append split
  have selected : token.word.opening? = some .branch := by
    rw [word]
    rfl
  have read := read_condition head inner (.prepend last tail) innerWords
  rw [statement_eq, Feed.prepend_cons, accept_bind_some _ selected, Feed.prepend_append]
  refine (bind_ok read).trans ((bind_ok (body last tail lastWords fun _ => detaches rfl)).trans ?_)
  cases tail with
  | token other rest =>
    have absent : other.word ≠ keyword "else" :=
      fun same => (detaches rfl).other (congrArg Sign.word same)
    rw [accept_bind_none _ (if_neg absent)]
    rfl
  | finish other => rfl
  | fault fault => exact absurd rfl ((detaches rfl).sound fault.cause)

theorem read_if_else {third : List Word} (head : (expression test).Read first)
    (body : (block false positive).Read second) (other : (block dangling negative).Read third) :
    (statement dangling (.ifElse test positive negative)).Read
      (keyword "if" :: symbol "(" :: first ++ symbol ")" :: second ++ keyword "else" :: third) := by
  intro tokens tail spelled detaches
  have split : words tokens =
      (keyword "if" :: ((symbol "(" :: first ++ [symbol ")"]) ++
        (second ++ keyword "else" :: third))) := by
    rw [spelled]
    simp
  obtain ⟨token, others, rfl, word, later⟩ := words_eq_cons split
  obtain ⟨inner, last, rfl, innerWords, lastWords⟩ := words_eq_append later
  obtain ⟨middle, last, rfl, middleWords, lastWords⟩ := words_eq_append lastWords
  obtain ⟨between, last, rfl, betweenWord, lastWords⟩ := words_eq_cons lastWords
  have selected : token.word.opening? = some .branch := by
    rw [word]
    rfl
  have read := read_condition head inner (.prepend (middle ++ between :: last) tail) innerWords
  have readBody := body middle (.token between (.prepend last tail)) middleWords (by simp)
  rw [statement_eq, Feed.prepend_cons, accept_bind_some _ selected, Feed.prepend_append]
  refine (bind_ok read).trans ?_
  rw [Feed.prepend_append, Feed.prepend_cons]
  refine (bind_ok readBody).trans ?_
  have found : Word.only (.keyword "else") between.word = some () := by
    rw [betweenWord, only_self]
  rw [accept_bind_some _ found]
  exact bind_ok (other last tail lastWords detaches)

theorem read_braces (body : (statements nodes).Read spelling) (joined : Joined nodes node) :
    (block false node).Read (symbol "\x7b" :: spelling ++ [symbol "\x7d"]) := by
  rw [joined_iff.mp joined]
  intro tokens tail spelled _
  obtain ⟨opening, others, rfl, word, later⟩ := words_eq_cons spelled
  obtain ⟨inner, last, rfl, innerWords, lastWords⟩ := words_eq_append later
  obtain ⟨closing, rfl, closingWord⟩ := words_eq_singleton lastWords
  have selected : Word.only (.symbol "\x7b") opening.word = some () := by
    rw [word, only_self]
  have read := body inner (.token closing tail) innerWords (.inr (congrArg Sign.word closingWord))
  rw [block_eq, Feed.prepend_cons, accept_bind_some _ selected, Feed.prepend_append]
  exact (bind_ok read).trans (pass_bind_some tail closingWord)

theorem read_plain (derives : Derives (.statement dangling node) spelling)
    (body : (statement dangling node).Read spelling) : (block dangling node).Read spelling := by
  intro tokens tail spelled detaches
  obtain ⟨first, rest, rfl, opens⟩ := derives.opens (by simp)
  obtain ⟨token, others, rfl, word, later⟩ := words_eq_cons spelled
  have absent : token.word ≠ symbol "\x7b" := by
    rw [word]
    exact (ne_of_opens_statement opens).1
  rw [block_eq, Feed.prepend_cons, accept_bind_none _ (if_neg absent)]
  exact body (token :: others) tail spelled detaches

theorem read_none : (statements []).Read [] := by
  intro tokens tail spelled stops
  rw [List.map_eq_nil_iff.mp spelled, Feed.prepend_nil, statements_eq]
  cases tail with
  | token token rest =>
    have closing : token.word = symbol "\x7d" := by
      rcases stops with sign | sign
      · cases sign
      · exact Sign.word.inj sign
    rw [look_bind_token]
    dsimp only
    rw [if_pos closing]
    rfl
  | finish token => rfl
  | fault fault => rcases stops with sign | sign <;> cases sign

/-- No list of statements starts with `else`, so a statement in front of one is detached from it. -/
theorem detaches_statements (derives : Derives (.statements nodes) spelling) (tokens : List Token)
    (tail : Feed) (spelled : words tokens = spelling) (detaches : tail.sign.Detaches) :
    (Feed.prepend tokens tail).sign.Detaches := by
  cases derives with
  | none =>
    rw [List.map_eq_nil_iff.mp spelled]
    exact detaches
  | more head rest =>
    obtain ⟨first, others, rfl, opens⟩ := head.opens (by simp)
    obtain ⟨token, others, rfl, word, later⟩ := words_eq_cons spelled
    refine ⟨fun cause same => (by cases same), fun same => ?_⟩
    exact (ne_of_opens_statement opens).2.2 (by rw [← word]; exact Sign.word.inj same)

theorem statements_of_statement {tokens : List Token} {rest : Feed}
    (derives : Derives (.statement dangling node) (words tokens))
    (read : Descent.statement (.prepend tokens rest) = .ok (node, rest)) :
    Descent.statements (.prepend tokens rest) =
      (Descent.statements rest).map fun later => (node :: later.1, later.2) := by
  obtain ⟨first, behind, spelled, opens⟩ := derives.opens (by simp)
  obtain ⟨token, others, rfl, word, _⟩ := words_eq_cons spelled
  have unclosed : token.word ≠ symbol "\x7d" := by
    rw [word]
    exact (ne_of_opens_statement opens).2.1
  rw [Feed.prepend_cons] at read ⊢
  conv_lhs => rw [statements_eq, look_bind_token]
  dsimp only
  rw [if_neg unclosed]
  refine (bind_ok read).trans ?_
  change (Descent.statements rest >>= _) = _
  cases Descent.statements rest <;> rfl

theorem read_more (derives : Derives (.statement dangling node) front)
    (others : Derives (.statements nodes) back) (head : (statement dangling node).Read front)
    (rest : (statements nodes).Read back) : (statements (node :: nodes)).Read (front ++ back) := by
  intro tokens tail spelled stops
  obtain ⟨inner, last, rfl, innerWords, lastWords⟩ := words_eq_append spelled
  have read := head inner (.prepend last tail) innerWords fun _ =>
    detaches_statements others last tail lastWords stops.detaches
  rw [Feed.prepend_append, statements_of_statement (innerWords ▸ derives) read,
    rest last tail lastWords stops]
  rfl

end Phrase

/-- Every spelling of a phrase is read as that phrase. -/
theorem Derives.read {phrase : Phrase} {spelling : List Word} (derives : Derives phrase spelling) :
    phrase.Read spelling := by
  induction derives with
  | none => exact Phrase.read_none
  | more head tail first later => exact Phrase.read_more head tail first later
  | braces body joined induction => exact Phrase.read_braces induction joined
  | plain body induction => exact Phrase.read_plain body induction
  | print body induction => exact Phrase.read_print induction
  | ifThen head body test first => exact Phrase.read_if_then test first
  | ifElse head body other test first second => exact Phrase.read_if_else test first second
  | whileLoop head body test inner => exact Phrase.read_while test inner
  | evaluate body induction => exact Phrase.read_evaluate body induction
  | assign body induction => exact Phrase.read_assign induction
  | value body induction => exact Phrase.read_value body induction
  | apply op first second left right => exact Phrase.read_apply op left right
  | single body induction => exact Phrase.read_single induction
  | signed op body induction => exact Phrase.read_signed op induction
  | unsigned body induction => exact Phrase.read_unsigned body induction
  | reference text => exact Phrase.read_reference text
  | literal digits => exact Phrase.read_literal digits
  | group body induction => exact Phrase.read_group induction

/-- Statements in front of a sign that does not go on with them are read, and then what is behind
them. -/
theorem Derives.statements_prepend {nodes : List Node} {tokens : List Token} {rest : Feed}
    (derives : Derives (.statements nodes) (words tokens)) (detaches : rest.sign.Detaches) :
    Descent.statements (.prepend tokens rest) =
      (Descent.statements rest).map fun later => (nodes ++ later.1, later.2) := by
  generalize spelled : words tokens = spelling at derives
  induction nodes generalizing tokens spelling with
  | nil =>
    cases derives
    rw [List.map_eq_nil_iff.mp spelled]
    cases read : Descent.statements rest <;> exact read
  | cons first nodes induction =>
    cases derives with
    | more head tail =>
      obtain ⟨inner, last, rfl, innerWords, lastWords⟩ := words_eq_append spelled
      have read := head.read inner (.prepend last rest) innerWords fun _ =>
        Phrase.detaches_statements tail last rest lastWords detaches
      rw [Feed.prepend_append, Phrase.statements_of_statement (innerWords ▸ head) read,
        induction _ lastWords tail]
      cases Descent.statements rest <;> rfl

end WhileLang
