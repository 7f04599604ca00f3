import WhileLang.Proofs.Tracking

/-!
# The parser agrees with the descent

Every rule of the parser tracks the rule of the descent of the same name (`Rules`), as soon as the
budget covers the tokens that are left. A rule calls a lower one at its own token, or any other at a
later token; a budget of sixteen units for each token allows for all heights between two tokens.
-/

namespace WhileLang

set_option autoImplicit false

open Descent

/-- The rules that have to pass a token, which are all but lists of statements. -/
inductive Rule where
  | block
  | statement
  | condition
  | expression
  | binary (level : Level)
  | unary
  | factor

namespace Rule

def parser : Rule → Nat → Parser Node
  | block, budget => Parser.block budget
  | statement, budget => Parser.statement budget
  | condition, budget => Parser.parenthesised (Parser.expression budget)
  | expression, budget => Parser.expression budget
  | binary level, budget => Parser.binary budget level
  | unary, budget => Parser.unary budget
  | factor, budget => Parser.factor budget

def descent : Rule → Descent Node
  | block => Descent.block
  | statement => Descent.statement
  | condition => Descent.condition
  | expression => Descent.expression
  | binary level => Descent.binary level
  | unary => Descent.unary
  | factor => Descent.factor

/-- How far up in the grammar a rule stands: a rule that calls another at the same token calls a
lower one. A condition passes its parenthesis first. -/
def height : Rule → Nat
  | block => 9
  | statement => 8
  | condition => 0
  | expression => 7
  | binary level => 3 + level.rank
  | unary => 2
  | factor => 1

theorem height_lt (rule : Rule) : rule.height < 16 := by
  cases rule with
  | binary level => cases level <;> decide
  | _ => decide

end Rule

/-- The budget covers the tokens that are left and, in units between them, this height in the
grammar. -/
def Covers (height budget : Nat) (reader : Reader) : Prop :=
  16 * reader.feed.length + height ≤ budget

/-- What comes behind the operand does not depend on which level it is of. -/
theorem binary_succ (budget : Nat) (level : Level) :
    Parser.binary (budget + 1) level = ((match level.tighter? with
      | some tighter => Parser.binary budget tighter
      | none => Parser.unary budget) >>= fun left => do
        match ← Parser.operator? level.operator? with
        | some op =>
          Parser.advance
          let right ← Parser.binary budget level
          return .binary op left right
        | none => return left) := by
  cases level <;> rfl

/-- All rules track their readings with these two budgets. Only a list of statements may be
empty. -/
structure Rules (budget other : Nat) : Prop where
  statements : ∀ reader : Reader,
    Tracks 0 (Covers 9 budget reader) (Parser.statements budget) (Parser.statements other)
      (Descent.statements reader.feed) reader
  rule : ∀ (rule : Rule) (reader : Reader),
    Tracks 1 (Covers rule.height budget reader) (rule.parser budget) (rule.parser other)
      (rule.descent reader.feed) reader

theorem condition_tracks {budget other : Nat}
    (expression : ∀ inner : Reader, Tracks 1 (Covers 7 budget inner) (Parser.expression budget)
      (Parser.expression other) (Descent.expression inner.feed) inner) (reader : Reader) :
    Tracks 1 (Covers 0 budget reader) (Parser.parenthesised (Parser.expression budget))
      (Parser.parenthesised (Parser.expression other)) (Descent.condition reader.feed) reader := by
  rw [condition_eq]
  refine .bind (.pass (by decide)) (fun _ inner shorter => ?_) fun _ =>
    (looks_expression.bind _).keeps
  have covered : Covers 0 budget reader → Covers 7 budget inner := by
    unfold Covers
    omega
  exact .closed (by decide) ((expression inner).weaken (Nat.zero_le 1) covered) id

namespace Rules

variable {budget other height : Nat} (rules : Rules budget other) {reader last : Reader}

include rules

theorem lower (rule : Rule) (below : rule.height < height) :
    Tracks 1 (Covers height (budget + 1) reader) (rule.parser budget) (rule.parser other)
      (rule.descent reader.feed) reader := by
  refine (rules.rule rule reader).weaken (Nat.le_refl 1) ?_
  unfold Covers
  omega

theorem later (rule : Rule) (shorter : last.feed.length < reader.feed.length) :
    Tracks 0 (Covers height (budget + 1) reader) (rule.parser budget) (rule.parser other)
      (rule.descent last.feed) last := by
  have bounded := rule.height_lt
  refine (rules.rule rule last).weaken (Nat.zero_le 1) ?_
  unfold Covers
  omega

theorem statements_later (shorter : last.feed.length < reader.feed.length) :
    Tracks 0 (Covers height (budget + 1) reader) (Parser.statements budget)
      (Parser.statements other) (Descent.statements last.feed) last := by
  refine (rules.statements last).weaken (Nat.le_refl 0) ?_
  unfold Covers
  omega

variable (reader)

theorem factor_step :
    Tracks 1 (Covers 1 (budget + 1) reader) (Parser.factor (budget + 1)) (Parser.factor (other + 1))
      (Descent.factor reader.feed) reader := by
  rw [factor_eq, Parser.factor, Parser.factor]
  refine .current ?_
  by_cases name : reader.cursor.current.kind = .identifier
  · have found : reader.cursor.current.word.operand? =
        some (.name (reader.cursor.current.text.getD "")) := by
      simp [Word.operand?, Token.word, name]
    rw [if_pos name, if_pos name]
    exact .accept (by simp [name]) found (fun last _ => .pure _) (keeps_pure _)
  rw [if_neg name, if_neg name]
  by_cases numeral : reader.cursor.current.kind = .numeric
  · have found : reader.cursor.current.word.operand? =
        some (.numeral (reader.cursor.current.text.getD "")) := by
      simp [Word.operand?, Token.word, numeral]
    rw [if_pos numeral, if_pos numeral]
    exact .accept (by simp [numeral]) found (fun last _ => .pure _) (keeps_pure _)
  rw [if_neg numeral, if_neg numeral]
  by_cases opening : reader.cursor.current.isOperator "(" = true
  · have word := (Token.is_operator_iff _ "(" (by decide)).mp opening
    have found : reader.cursor.current.word.operand? = some .group := by
      rw [word]
      rfl
    have unfinished : reader.cursor.current.kind ≠ .endOfFile := by
      have kinds : reader.cursor.current.kind = .operator := congrArg Word.kind word
      simp [kinds]
    rw [if_pos opening, if_pos opening]
    -- The parenthesis is passed by the rule of conditions too, which is the one the parser calls.
    have grouped :
        Tracks 1 (Covers 1 (budget + 1) reader) (Parser.parenthesised (Parser.expression budget))
          (Parser.parenthesised (Parser.expression other)) (Descent.condition reader.feed) reader :=
      rules.lower .condition (by decide)
    rw [Reader.feed_of_unfinished unfinished, condition_eq, pass_bind_some _ word] at grouped
    rwa [Reader.feed_of_unfinished unfinished, accept_bind_some _ found]
  · have missing : reader.cursor.current.word.operand? = none := by
      have other : reader.cursor.current.word ≠ .symbol "(" :=
        fun word => opening ((Token.is_operator_iff _ "(" (by decide)).mpr word)
      exact (if_neg name).trans ((if_neg numeral).trans (if_neg other))
    rw [if_neg opening, if_neg opening, accept_bind_reader missing]
    exact .refuse rfl

theorem unary_step :
    Tracks 1 (Covers 2 (budget + 1) reader) (Parser.unary (budget + 1)) (Parser.unary (other + 1))
      (Descent.unary reader.feed) reader := by
  rw [unary_eq, Parser.unary, Parser.unary]
  cases found : reader.cursor.current.word.unaryOperator? with
  | none =>
    rw [accept_bind_reader found]
    exact .operator found (rules.lower .factor (by decide))
  | some op =>
    have word := Word.unary_operator_eq_some found
    have kinds : reader.cursor.current.kind = .operator := congrArg Word.kind word
    refine .operator found (.accept (by simp [kinds]) found ?_ (looks_unary.bind _).keeps)
    exact fun last shorter => .wrapped (rules.later .unary shorter) _

theorem operand_step (level : Level) :
    Tracks 1 (Covers (3 + level.rank) (budget + 1) reader)
      (match level.tighter? with
        | some tighter => Parser.binary budget tighter
        | none => Parser.unary budget)
      (match level.tighter? with
        | some tighter => Parser.binary other tighter
        | none => Parser.unary other)
      (Descent.operand level reader.feed) reader := by
  cases level with
  | logical => exact rules.lower (.binary .comparison) (by decide)
  | comparison => exact rules.lower (.binary .arithmetic) (by decide)
  | arithmetic => exact rules.lower (.binary .term) (by decide)
  | term => exact rules.lower .unary (by decide)

theorem binary_step (level : Level) :
    Tracks 1 (Covers (3 + level.rank) (budget + 1) reader) (Parser.binary (budget + 1) level)
      (Parser.binary (other + 1) level) (Descent.binary level reader.feed) reader := by
  rw [binary_eq, binary_succ, binary_succ]
  refine .bind (rules.operand_step reader level) ?_ fun _ => ((looks_accept _).bind _).keeps
  intro left rest shorter
  cases found : rest.cursor.current.word.operator? level with
  | none =>
    rw [accept_bind_reader found]
    exact .operator found (.pure left)
  | some op =>
    have word := (Word.operator_eq_some found).1
    have kinds : rest.cursor.current.kind = .operator := congrArg Word.kind word
    refine .operator found (Tracks.weaken (.accept (by simp [kinds]) found ?_ ?_)
      (Nat.zero_le 1) id)
    · exact fun last nearer => .wrapped (rules.later (.binary level) (by omega)) _
    · exact ((looks_binary level).bind _).keeps

theorem expression_step :
    Tracks 1 (Covers 7 (budget + 1) reader) (Parser.expression (budget + 1))
      (Parser.expression (other + 1)) (Descent.expression reader.feed) reader := by
  rw [expression_eq, Parser.expression, Parser.expression]
  refine .current ?_
  by_cases name : reader.cursor.current.kind = .identifier
  · have unfinished : reader.cursor.current.kind ≠ .endOfFile := by simp [name]
    have feed := Reader.feed_of_unfinished unfinished
    rw [if_pos name, if_pos name]
    refine .probe unfinished ?_ ?_ ?_
    · intro fault ahead
      rw [feed, ahead, target_bind_fault name]
      exact .refused ⟨.operand, .fault fault⟩ reader
    · intro moved ahead assigned
      have word := (Token.is_operator_iff _ "=" (by decide)).mp assigned
      have further := Token.unfinished_of_is assigned (by decide)
      have behind := Reader.feed_of_unfinished further
      rw [feed, ← ahead, behind, target_bind_some name word]
      refine Tracks.weaken (.advance further ?_ (looks_expression.bind _).keeps) (Nat.zero_le 1) id
      intro last same
      have shorter : last.feed.length < reader.feed.length := by
        rw [feed, ← ahead, behind, same]
        simp only [Feed.length]
        omega
      exact .wrapped (rules.later .expression shorter) _
    · -- Stepping back restores the cursor, so that the next rule starts over at the name.
      intro moved ahead absent
      have sound : ∀ fault, reader.cursor.scanner.feed ≠ .fault fault := by
        intro fault
        rw [← ahead]
        exact moved.feed_ne_fault fault
      have absentSign : reader.cursor.scanner.feed.sign ≠ .word (.symbol "=") := by
        rw [← ahead]
        intro stands
        have assigned := (Token.is_operator_iff _ "=" (by decide)).mpr (Reader.current_word stands)
        rw [assigned] at absent
        cases absent
      have again : Tracks 1 (Covers 7 (budget + 1) ⟨reader.cursor, moved.taken⟩)
          (Parser.binary budget .logical) (Parser.binary other .logical)
          (Descent.binary .logical reader.feed) ⟨reader.cursor, moved.taken⟩ :=
        rules.lower (.binary .logical) (by decide)
      rw [feed, target_bind_none name absentSign sound, ← feed]
      exact again
  · have stays : ∀ next : Option String → Descent Node,
        (target >>= next) reader.feed = next none reader.feed := by
      intro next
      by_cases finished : reader.cursor.current.kind = .endOfFile
      · rw [Reader.feed_of_finished finished, target_bind_finish]
      · rw [Reader.feed_of_unfinished finished, target_bind_missing name]
    rw [if_neg name, if_neg name, stays]
    exact rules.lower (.binary .logical) (by decide)

theorem loop_step (shorter : last.feed.length < reader.feed.length) :
    Tracks 0 (Covers height (budget + 1) reader)
      (do
        let test ← Parser.parenthesised (Parser.expression budget)
        let body ← Parser.block budget
        return Node.whileLoop test body)
      (do
        let test ← Parser.parenthesised (Parser.expression other)
        let body ← Parser.block other
        return Node.whileLoop test body)
      ((do
        let test ← Descent.condition
        let body ← Descent.block
        return Node.whileLoop test body) last.feed) last := by
  refine .bind (rules.later .condition shorter) ?_ fun _ => (looks_block.bind _).keeps
  intro test middle nearer
  exact .wrapped (rules.later .block (by omega)) _

theorem branch_step (shorter : last.feed.length < reader.feed.length) :
    Tracks 0 (Covers height (budget + 1) reader)
      (do
        let test ← Parser.parenthesised (Parser.expression budget)
        let positive ← Parser.block budget
        if (← Parser.current).isKeyword "else" then
          Parser.advance
          let negative ← Parser.block budget
          return Node.ifElse test positive negative
        else return Node.ifThen test positive)
      (do
        let test ← Parser.parenthesised (Parser.expression other)
        let positive ← Parser.block other
        if (← Parser.current).isKeyword "else" then
          Parser.advance
          let negative ← Parser.block other
          return Node.ifElse test positive negative
        else return Node.ifThen test positive)
      ((do
        let test ← Descent.condition
        let positive ← Descent.block
        match ← accept (Word.only (.keyword "else")) with
        | some _ => return Node.ifElse test positive (← Descent.block)
        | none => return Node.ifThen test positive) last.feed) last := by
  refine .bind (rules.later .condition shorter) ?_ fun _ => (looks_block.bind _).keeps
  intro test middle nearer
  refine .bind (rules.later .block (by omega)) ?_ fun _ => ((looks_accept _).bind _).keeps
  intro positive final nearest
  refine .current ?_
  by_cases negative : final.cursor.current.isKeyword "else" = true
  · rw [if_pos negative, if_pos negative]
    refine Tracks.weaken (.only (by decide) (by decide) negative ?_ (looks_block.bind _).keeps)
      (Nat.zero_le 1) id
    exact fun second behind => .wrapped (rules.later .block (by omega)) _
  · rw [if_neg negative, if_neg negative, Word.keyword, only_missing (by decide) negative]
    exact .pure _

theorem statement_step :
    Tracks 1 (Covers 8 (budget + 1) reader) (Parser.statement (budget + 1))
      (Parser.statement (other + 1)) (Descent.statement reader.feed) reader := by
  rw [statement_eq, Parser.statement, Parser.statement]
  refine .current ?_
  by_cases keyword : reader.cursor.current.kind = .keyword
  · have unfinished : reader.cursor.current.kind ≠ .endOfFile := by simp [keyword]
    have opening :
        ∀ {text : String} (_ : text ≠ "") (_ : reader.cursor.current.isKeyword text = true),
          reader.cursor.current.word.opening? = (Word.keyword text).opening? := by
      intro text nonempty stands
      rw [(Token.is_keyword_iff _ text nonempty).mp stands]
    have differs :
        ∀ {text : String} (_ : text ≠ "") (_ : ¬reader.cursor.current.isKeyword text = true),
          reader.cursor.current.word ≠ .keyword text :=
      fun nonempty absent word => absent ((Token.is_keyword_iff _ _ nonempty).mpr word)
    have same : ¬reader.cursor.current.kind ≠ .keyword := fun differs => differs keyword
    rw [if_neg same, if_neg same]
    by_cases print : reader.cursor.current.isKeyword "print" = true
    · rw [if_pos print, if_pos print]
      refine .accept unfinished (opening (by decide) print) ?_ (looks_expression.bind _).keeps
      exact fun rest shorter => .closed (by decide) (rules.later .expression shorter) Node.print
    rw [if_neg print, if_neg print]
    by_cases branch : reader.cursor.current.isKeyword "if" = true
    · rw [if_pos branch, if_pos branch]
      refine .accept unfinished (opening (by decide) branch) ?_ (looks_condition.bind _).keeps
      exact fun rest shorter => rules.branch_step reader shorter
    rw [if_neg branch, if_neg branch]
    by_cases loop : reader.cursor.current.isKeyword "while" = true
    · rw [if_pos loop, if_pos loop]
      refine .accept unfinished (opening (by decide) loop) ?_ (looks_condition.bind _).keeps
      exact fun rest shorter => rules.loop_step reader shorter
    have missing : reader.cursor.current.word.opening? = none := by
      rw [Word.opening?, if_neg (differs (by decide) print), if_neg (differs (by decide) branch),
        if_neg (differs (by decide) loop)]
    have stray : reader.upcoming.any (fun word => decide (word.kind = .keyword)) = true := by
      simp [Reader.upcoming, Token.word, keyword]
    rw [if_neg loop, if_neg loop, accept_bind_reader missing]
    dsimp only
    rw [look_bind_reader, if_pos stray]
    exact .refuse rfl
  · have missing : reader.cursor.current.word.opening? = none := by
      have differs : ∀ text, reader.cursor.current.word ≠ .keyword text :=
        fun text word => keyword (congrArg Word.kind word)
      rw [Word.opening?, if_neg (differs _), if_neg (differs _), if_neg (differs _)]
    have plain : ¬reader.upcoming.any (fun word => decide (word.kind = .keyword)) = true := by
      unfold Reader.upcoming
      split <;> simp [Token.word, keyword]
    rw [if_pos keyword, if_pos keyword, accept_bind_reader missing]
    dsimp only
    rw [look_bind_reader, if_neg plain]
    exact .closed (by decide) (rules.lower .expression (by decide)) id

theorem block_step :
    Tracks 1 (Covers 9 (budget + 1) reader) (Parser.block (budget + 1)) (Parser.block (other + 1))
      (Descent.block reader.feed) reader := by
  rw [block_eq, Parser.block, Parser.block]
  refine .current ?_
  by_cases opening : reader.cursor.current.isOperator "\x7b" = true
  · rw [if_pos opening, if_pos opening]
    refine .only (by decide) (by decide) opening ?_ (looks_statements.bind _).keeps
    exact fun rest shorter => .closed (by decide) (rules.statements_later shorter) Node.ofStatements
  · rw [if_neg opening, if_neg opening, Word.symbol, only_missing (by decide) opening]
    exact rules.lower .statement (by decide)

theorem statements_step :
    Tracks 0 (Covers 9 (budget + 1) reader) (Parser.statements (budget + 1))
      (Parser.statements (other + 1)) (Descent.statements reader.feed) reader := by
  rw [statements_eq, Parser.statements, Parser.statements, look_bind_reader]
  refine .current ?_
  by_cases stops : (decide (reader.cursor.current.kind = .endOfFile) ||
      reader.cursor.current.isOperator "\x7d") = true
  · rw [if_pos stops, if_pos stops]
    by_cases finished : reader.cursor.current.kind = .endOfFile
    · have upcoming : reader.upcoming = none := if_pos finished
      rw [upcoming]
      exact .pure []
    · have upcoming : reader.upcoming = some reader.cursor.current.word := if_neg finished
      have closing : reader.cursor.current.isOperator "\x7d" = true := by
        simpa [finished] using stops
      rw [upcoming]
      dsimp only
      rw [if_pos ((Token.is_operator_iff _ "\x7d" (by decide)).mp closing)]
      exact .pure []
  · rw [if_neg stops, if_neg stops]
    simp only [Bool.or_eq_true, decide_eq_true_eq, not_or] at stops
    have upcoming : reader.upcoming = some reader.cursor.current.word := if_neg stops.1
    have word : reader.cursor.current.word ≠ .symbol "\x7d" :=
      fun word => stops.2 ((Token.is_operator_iff _ "\x7d" (by decide)).mpr word)
    rw [upcoming]
    dsimp only
    rw [if_neg word]
    have first :
        Tracks 1 (Covers 9 (budget + 1) reader) (Parser.statement budget) (Parser.statement other)
          (Descent.statement reader.feed) reader := rules.lower .statement (by decide)
    -- The next round of the loop has fewer tokens left, since a statement has passed one.
    refine Tracks.weaken (.bind first ?_ fun _ => (looks_statements.bind _).keeps)
      (Nat.zero_le 1) id
    exact fun node rest shorter => .wrapped (rules.statements_later shorter) _

end Rules

/-- A larger budget changes nothing. -/
theorem rules {budget other : Nat} (larger : budget ≤ other) : Rules budget other := by
  induction budget generalizing other with
  | zero =>
    have starved : ∀ {height : Nat} (reader : Reader) (_ : 0 < height),
        ¬Covers height 0 reader := by
      intro height reader positive covers
      unfold Covers at covers
      omega
    have expression : ∀ reader : Reader, Tracks 1 (Covers 7 0 reader) (Parser.expression 0)
        (Parser.expression other) (Descent.expression reader.feed) reader :=
      fun reader => .spent (starved reader (by decide))
    refine ⟨fun reader => .spent (starved reader (by decide)), fun rule reader => ?_⟩
    cases rule with
    | block => exact .spent (starved reader (by decide))
    | statement => exact .spent (starved reader (by decide))
    | condition => exact condition_tracks expression reader
    | expression => exact expression reader
    | binary level =>
      exact .spent (starved reader (Nat.lt_of_lt_of_le (by decide) (Nat.le_add_right 3 _)))
    | unary => exact .spent (starved reader (by decide))
    | factor => exact .spent (starved reader (by decide))
  | succ budget induction =>
    obtain ⟨other, rfl⟩ : ∃ fewer, other = fewer + 1 := ⟨other - 1, by omega⟩
    have rules := induction (Nat.le_of_succ_le_succ larger)
    refine ⟨rules.statements_step, fun rule reader => ?_⟩
    cases rule with
    | block => exact rules.block_step reader
    | statement => exact rules.statement_step reader
    | condition => exact condition_tracks rules.expression_step reader
    | expression => exact rules.expression_step reader
    | binary level => exact rules.binary_step reader level
    | unary => exact rules.unary_step reader
    | factor => exact rules.factor_step reader

theorem outcome_of_ok {cursor : Cursor} {nodes : List Node} {last : Reader}
    (read : Parser.statements (Parser.budgetFor cursor.scanner.rest.length) ⟨cursor, []⟩ =
      .ok nodes last) :
    (Parsing.ofCursor cursor).outcome = .ok (.ofStatements nodes) := by
  have program : Parser.program (Parser.budgetFor cursor.scanner.rest.length) ⟨cursor, []⟩ =
      .ok (.ofStatements nodes) last := by
    change EStateM.bind (Parser.statements _) _ _ = _
    rw [EStateM.bind, read]
    rfl
  rw [Parsing.ofCursor, program]

theorem outcome_of_error {cursor : Cursor} {fault : Fault} {last : Reader}
    (read : Parser.statements (Parser.budgetFor cursor.scanner.rest.length) ⟨cursor, []⟩ =
      .error fault last) :
    (Parsing.ofCursor cursor).outcome = .error fault := by
  have program : Parser.program (Parser.budgetFor cursor.scanner.rest.length) ⟨cursor, []⟩ =
      .error fault last := by
    change EStateM.bind (Parser.statements _) _ _ = _
    rw [EStateM.bind, read]
  rw [Parsing.ofCursor, program]

/-- A cursor has no more tokens before it than characters are left. -/
theorem Cursor.budget_covers (cursor : Cursor) (taken : List Token) :
    Covers 9 (Parser.budgetFor cursor.scanner.rest.length) ⟨cursor, taken⟩ := by
  have bound := cursor.scanner.length_feed_le
  unfold Covers Reader.feed Cursor.feed Parser.budgetFor
  split <;> simp only [Feed.length] <;> omega

theorem Cursor.agrees (cursor : Cursor) :
    Agrees (Parser.statements (Parser.budgetFor cursor.scanner.rest.length) ⟨cursor, []⟩)
      (statements cursor.feed) :=
  ((rules (Nat.le_refl _)).statements ⟨cursor, []⟩).agrees (cursor.budget_covers [])

/-- Parsing a source comes to the same end as the descent over its feed. -/
theorem parse_cases (source : String) :
    (∃ nodes rest, statements (Scanner.ofString source).feed = .ok (nodes, rest) ∧
      (∀ fault, rest ≠ .fault fault) ∧ parse source = .ok (.ofStatements nodes)) ∨
    (∃ nodes fault, statements (Scanner.ofString source).feed = .ok (nodes, .fault fault) ∧
      parse source = .error fault) ∨
    ∃ refusal, statements (Scanner.ofString source).feed = .error refusal ∧
      parse source = .error refusal.fault := by
  rw [← Scanner.resume_start]
  unfold parse Parsing.ofString Cursor.ofString Cursor.ofPlace
  cases taken : (Scanner.resume source.toList Place.start).next with
  | mk outcome after =>
    cases outcome with
    | error fault =>
      obtain ⟨refusal, stops, same⟩ := looks_statements fault
      refine .inr (.inr ⟨refusal, ?_, congrArg Except.error same.symm⟩)
      rw [Scanner.feed_of_fault taken, stops]
    | ok token =>
      have agrees := Cursor.agrees ⟨source.toList, after.place, token, []⟩
      rw [Cursor.feed_of_next taken []]
      generalize read : Parser.statements _ _ = outcome at agrees
      generalize statements _ = reading at agrees
      cases agrees with
      | ok nodes last => exact .inl ⟨nodes, last.feed, rfl, last.feed_ne_fault, outcome_of_ok read⟩
      | late nodes fault last => exact .inr (.inl ⟨nodes, fault, rfl, outcome_of_error read⟩)
      | refused refusal last => exact .inr (.inr ⟨refusal, rfl, outcome_of_error read⟩)

end WhileLang
