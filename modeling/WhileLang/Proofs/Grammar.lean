import WhileLang.Number.Numeral
import WhileLang.Proofs.Feed
import WhileLang.Node

/-!
# Grammar

Which words spell which tree. `Derives` has one constructor for each alternative of the grammar

    statements  := statement*
    statement   := 'print' expression ';' | 'if' '(' expression ')' block ('else' block)?
                 | 'while' '(' expression ')' block | expression ';'
    block       := '{' statements '}' | statement
    expression  := name '=' expression | binary logical
    binary L    := operand (operator of L, binary L)?             operands bind tighter than L
    unary       := ('!' | '-') unary | factor
    factor      := name | numeral | '(' expression ')'

and speaks of words only: neither of places nor of what stands behind a phrase. An `else` belongs to
the nearest `if` that has none. So a statement that ends in an `if` without `else` is called
dangling, and what stands between an `if` and its `else` must not dangle.
-/

namespace WhileLang

set_option autoImplicit false

inductive Phrase where
  | statements (nodes : List Node)
  | block (dangling : Bool) (node : Node)
  | statement (dangling : Bool) (node : Node)
  | expression (node : Node)
  | binary (level : Level) (node : Node)
  | unary (node : Node)
  | factor (node : Node)

/-- An operand of a level is an expression of the next tighter one. -/
def Phrase.operand (level : Level) (node : Node) : Phrase :=
  match level.tighter? with
  | some tighter => .binary tighter node
  | none => .unary node

/-- Statements in a row make one tree: exactly one of them is that tree, any other number of them a
block. -/
inductive Joined : List Node → Node → Prop where
  | single (node : Node) : Joined [node] node
  | several {nodes : List Node} (plural : nodes.length ≠ 1) : Joined nodes (.block nodes)

open Word in
/-- The words spell the phrase. -/
inductive Derives : Phrase → List Word → Prop where
  | none : Derives (.statements []) []
  | more {dangling : Bool} {first : Node} {rest : List Node} {front back : List Word}
      (head : Derives (.statement dangling first) front) (tail : Derives (.statements rest) back) :
      Derives (.statements (first :: rest)) (front ++ back)
  | braces {nodes : List Node} {node : Node} {inner : List Word}
      (body : Derives (.statements nodes) inner) (joined : Joined nodes node) :
      Derives (.block false node) (symbol "\x7b" :: inner ++ [symbol "\x7d"])
  | plain {dangling : Bool} {node : Node} {spelling : List Word}
      (body : Derives (.statement dangling node) spelling) :
      Derives (.block dangling node) spelling
  | print {node : Node} {spelling : List Word} (body : Derives (.expression node) spelling) :
      Derives (.statement false (.print node)) (keyword "print" :: spelling ++ [symbol ";"])
  | ifThen {dangling : Bool} {condition positive : Node} {test first : List Word}
      (head : Derives (.expression condition) test)
      (body : Derives (.block dangling positive) first) :
      Derives (.statement true (.ifThen condition positive))
        (keyword "if" :: symbol "(" :: test ++ symbol ")" :: first)
  | ifElse {dangling : Bool} {condition positive negative : Node} {test first second : List Word}
      (head : Derives (.expression condition) test) (body : Derives (.block false positive) first)
      (other : Derives (.block dangling negative) second) :
      Derives (.statement dangling (.ifElse condition positive negative))
        (keyword "if" :: symbol "(" :: test ++ symbol ")" :: first ++ keyword "else" :: second)
  | whileLoop {dangling : Bool} {condition repeated : Node} {test inner : List Word}
      (head : Derives (.expression condition) test)
      (body : Derives (.block dangling repeated) inner) :
      Derives (.statement dangling (.whileLoop condition repeated))
        (keyword "while" :: symbol "(" :: test ++ symbol ")" :: inner)
  | evaluate {node : Node} {spelling : List Word} (body : Derives (.expression node) spelling) :
      Derives (.statement false node) (spelling ++ [symbol ";"])
  | assign {target : String} {node : Node} {spelling : List Word}
      (body : Derives (.expression node) spelling) :
      Derives (.expression (.assign target node)) (name target :: symbol "=" :: spelling)
  | value {node : Node} {spelling : List Word} (body : Derives (.binary .logical node) spelling) :
      Derives (.expression node) spelling
  | apply (op : BinaryOp) {left right : Node} {front back : List Word}
      (first : Derives (.operand op.level left) front)
      (second : Derives (.binary op.level right) back) :
      Derives (.binary op.level (.binary op left right)) (front ++ symbol op.symbol :: back)
  | single {level : Level} {node : Node} {spelling : List Word}
      (body : Derives (.operand level node) spelling) : Derives (.binary level node) spelling
  | signed (op : UnaryOp) {node : Node} {spelling : List Word}
      (body : Derives (.unary node) spelling) :
      Derives (.unary (.unary op node)) (symbol op.symbol :: spelling)
  | unsigned {node : Node} {spelling : List Word} (body : Derives (.factor node) spelling) :
      Derives (.unary node) spelling
  | reference (text : String) : Derives (.factor (.reference text)) [name text]
  | literal (digits : String) :
      Derives (.factor (.literal (numeralValue digits.toList))) [numeral digits]
  | group {node : Node} {spelling : List Word} (body : Derives (.expression node) spelling) :
      Derives (.factor node) (symbol "(" :: spelling ++ [symbol ")"])

def Spells (spelling : List Word) (tree : Node) : Prop :=
  ∃ nodes, Derives (.statements nodes) spelling ∧ Joined nodes tree

/-- The trees of the grammar are those that the parser joins. -/
theorem joined_iff {nodes : List Node} {node : Node} :
    Joined nodes node ↔ node = .ofStatements nodes := by
  constructor
  · rintro (node | plural)
    · rfl
    · exact (Node.of_statements_eq_block plural).symm
  · rintro rfl
    by_cases single : nodes.length = 1
    · obtain ⟨node, rfl⟩ := List.length_eq_one_iff.mp single
      exact .single node
    · rw [Node.of_statements_eq_block single]
      exact .several single

theorem joined_of_statements (nodes : List Node) : Joined nodes (.ofStatements nodes) :=
  joined_iff.mpr rfl

theorem spells_iff {spelling : List Word} {tree : Node} :
    Spells spelling tree ↔
      ∃ nodes, Derives (.statements nodes) spelling ∧ tree = .ofStatements nodes := by
  simp only [Spells, joined_iff]

namespace Word

def opensFactor (word : Word) : Bool :=
  word.kind = .identifier || word.kind = .numeric || word = symbol "("

def opensExpression (word : Word) : Bool :=
  word.opensFactor || word = symbol "!" || word = symbol "-"

def opensStatement (word : Word) : Bool :=
  word.opensExpression || word = keyword "print" || word = keyword "if" || word = keyword "while"

def opensBlock (word : Word) : Bool :=
  word.opensStatement || word = symbol "\x7b"

def operator? (level : Level) (word : Word) : Option BinaryOp :=
  if word.kind = .operator then level.operator? word.text else none

def unaryOperator? (word : Word) : Option UnaryOp :=
  if word.kind = .operator then UnaryOp.ofSymbol? word.text else none

theorem opens_expression_of_factor {word : Word} (opens : word.opensFactor = true) :
    word.opensExpression = true := by
  simp [opensExpression, opens]

theorem opens_statement_of_expression {word : Word} (opens : word.opensExpression = true) :
    word.opensStatement = true := by
  simp [opensStatement, opens]

theorem opens_block_of_statement {word : Word} (opens : word.opensStatement = true) :
    word.opensBlock = true := by
  simp [opensBlock, opens]

end Word

namespace UnaryOp

@[simp] theorem of_symbol_symbol (op : UnaryOp) : ofSymbol? op.symbol = some op := by
  cases op <;> rfl

theorem symbol_of_of_symbol {text : String} {op : UnaryOp} (found : ofSymbol? text = some op) :
    text = op.symbol := by
  unfold ofSymbol? at found
  split at found <;> cases found <;> rfl

end UnaryOp

namespace Level

/-- Tighter levels come first. -/
def rank : Level → Nat
  | term => 0
  | arithmetic => 1
  | comparison => 2
  | logical => 3

theorem rank_tighter {level tighter : Level} (found : level.tighter? = some tighter) :
    tighter.rank + 1 = level.rank := by
  cases level <;> cases found <;> rfl

theorem operator_symbol (op : BinaryOp) (level : Level) :
    level.operator? op.symbol = if op.level = level then some op else none := by
  cases op with
  | logical op => cases op <;> cases level <;> rfl
  | comparison op => cases op <;> cases level <;> rfl
  | arithmetic op => cases op <;> cases level <;> rfl
  | term op => cases op <;> cases level <;> rfl

theorem operator_eq_some {level : Level} {text : String} {op : BinaryOp}
    (found : level.operator? text = some op) : text = op.symbol ∧ op.level = level := by
  cases level with
  | logical =>
    obtain ⟨inner, known, rfl⟩ := Option.map_eq_some_iff.mp found
    unfold LogicalOp.ofSymbol? at known
    split at known <;> cases known <;> exact ⟨rfl, rfl⟩
  | comparison =>
    obtain ⟨inner, known, rfl⟩ := Option.map_eq_some_iff.mp found
    unfold ComparisonOp.ofSymbol? at known
    split at known <;> cases known <;> exact ⟨rfl, rfl⟩
  | arithmetic =>
    obtain ⟨inner, known, rfl⟩ := Option.map_eq_some_iff.mp found
    unfold ArithmeticOp.ofSymbol? at known
    split at known <;> cases known <;> exact ⟨rfl, rfl⟩
  | term =>
    obtain ⟨inner, known, rfl⟩ := Option.map_eq_some_iff.mp found
    unfold TermOp.ofSymbol? at known
    split at known <;> cases known <;> exact ⟨rfl, rfl⟩

end Level

namespace Word

@[simp] theorem operator_symbol (op : BinaryOp) (level : Level) :
    (symbol op.symbol).operator? level = if op.level = level then some op else none := by
  simp [operator?, symbol, Level.operator_symbol]

theorem operator_eq_some {word : Word} {level : Level} {op : BinaryOp}
    (found : word.operator? level = some op) : word = symbol op.symbol ∧ op.level = level := by
  unfold operator? at found
  split at found
  · rename_i kind
    obtain ⟨text, placed⟩ := Level.operator_eq_some found
    refine ⟨?_, placed⟩
    cases word
    simp_all [symbol]
  · cases found

@[simp] theorem unary_operator_symbol (op : UnaryOp) :
    (symbol op.symbol).unaryOperator? = some op := by
  simp [unaryOperator?, symbol]

theorem unary_operator_eq_some {word : Word} {op : UnaryOp}
    (found : word.unaryOperator? = some op) : word = symbol op.symbol := by
  unfold unaryOperator? at found
  split at found
  · rename_i kind
    have text := UnaryOp.symbol_of_of_symbol found
    cases word
    simp_all [symbol]
  · cases found

end Word

namespace Phrase

def opens : Phrase → Word → Bool
  | statements _ => fun _ => true
  | block _ _ => Word.opensBlock
  | statement _ _ => Word.opensStatement
  | expression _ | binary _ _ | unary _ => Word.opensExpression
  | factor _ => Word.opensFactor

theorem opens_operand (level : Level) (node : Node) :
    (operand level node).opens = Word.opensExpression := by
  cases level <;> rfl

theorem operand_ne_statements (level : Level) (node : Node) (nodes : List Node) :
    operand level node ≠ .statements nodes := by
  cases level <;> simp [operand, Level.tighter?]

end Phrase

/-- Every phrase but a list of statements has a first word, and only some words can be that. -/
theorem Derives.opens {phrase : Phrase} {spelling : List Word} (derives : Derives phrase spelling)
    (single : ∀ nodes, phrase ≠ .statements nodes) :
    ∃ first rest, spelling = first :: rest ∧ phrase.opens first = true := by
  induction derives with
  | none => exact absurd rfl (single _)
  | more => exact absurd rfl (single _)
  | braces => exact ⟨_, _, rfl, rfl⟩
  | plain body induction =>
    obtain ⟨first, rest, rfl, opens⟩ := induction (by simp)
    exact ⟨first, rest, rfl, Word.opens_block_of_statement opens⟩
  | print body => exact ⟨_, _, rfl, rfl⟩
  | ifThen head body => exact ⟨_, _, rfl, rfl⟩
  | ifElse head body other => exact ⟨_, _, rfl, rfl⟩
  | whileLoop head body => exact ⟨_, _, rfl, rfl⟩
  | evaluate body induction =>
    obtain ⟨first, rest, rfl, opens⟩ := induction (by simp)
    exact ⟨first, _, rfl, Word.opens_statement_of_expression opens⟩
  | assign body => exact ⟨_, _, rfl, rfl⟩
  | value body induction => exact induction (by simp)
  | apply op first second induction =>
    obtain ⟨word, rest, rfl, opens⟩ := induction (Phrase.operand_ne_statements _ _)
    rw [Phrase.opens_operand] at opens
    exact ⟨word, _, rfl, opens⟩
  | single body induction =>
    obtain ⟨word, rest, rfl, opens⟩ := induction (Phrase.operand_ne_statements _ _)
    rw [Phrase.opens_operand] at opens
    exact ⟨word, rest, rfl, opens⟩
  | signed op body =>
    refine ⟨_, _, rfl, ?_⟩
    cases op <;> rfl
  | unsigned body induction =>
    obtain ⟨first, rest, rfl, opens⟩ := induction (by simp)
    exact ⟨first, rest, rfl, Word.opens_expression_of_factor opens⟩
  | reference text => exact ⟨_, _, rfl, rfl⟩
  | literal digits => exact ⟨_, _, rfl, rfl⟩
  | group body => exact ⟨_, _, rfl, rfl⟩

namespace Derives

variable {node : Node} {spelling : List Word}

theorem operand_of_unary (derives : Derives (.unary node) spelling) (level : Level) :
    Derives (.operand level node) spelling := by
  have term : Derives (.binary .term node) spelling := .single derives
  have arithmetic : Derives (.binary .arithmetic node) spelling := .single term
  have comparison : Derives (.binary .comparison node) spelling := .single arithmetic
  cases level with
  | logical => exact comparison
  | comparison => exact arithmetic
  | arithmetic => exact term
  | term => exact derives

theorem of_binary {level : Level} (derives : Derives (.binary level node) spelling) :
    Derives (.expression node) spelling := by
  apply Derives.value
  cases level with
  | logical => exact derives
  | comparison => exact .single derives
  | arithmetic => exact .single (.single derives)
  | term => exact .single (.single (.single derives))

theorem of_unary (derives : Derives (.unary node) spelling) : Derives (.expression node) spelling :=
  .of_binary (.single (derives.operand_of_unary .term))

theorem of_factor (derives : Derives (.factor node) spelling) :
    Derives (.expression node) spelling :=
  .of_unary (.unsigned derives)

end Derives

end WhileLang
