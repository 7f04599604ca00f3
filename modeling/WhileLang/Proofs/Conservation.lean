import WhileLang.Proofs.Recognition
import WhileLang.Proofs.Shape
import WhileLang.Proofs.Tokenisation

/-!
# Conservation of words

Reading a tree off from left to right gives back the words of its source. All that parsing drops are
parentheses, braces and semicolons, and of a numeral it keeps the value. Which words belong to the
tree is said without the grammar (`front?`): those before the end of the file or the first closing
brace that closes nothing.
-/

namespace WhileLang

set_option autoImplicit false

inductive Item where
  | word (word : Word)
  | value (value : Float)

def punctuation : List String :=
  ["(", ")", "\x7b", "\x7d", ";"]

theorem BinaryOp.symbol_not_punctuation (op : BinaryOp) : op.symbol ∉ punctuation := by
  cases op with
  | logical op => cases op <;> decide
  | comparison op => cases op <;> decide
  | arithmetic op => cases op <;> decide
  | term op => cases op <;> decide

theorem UnaryOp.symbol_not_punctuation (op : UnaryOp) : op.symbol ∉ punctuation := by
  cases op <;> decide

namespace Word

def item? (word : Word) : Option Item :=
  if word.kind = .operator ∧ word.text ∈ punctuation then none
  else if word.kind = .numeric then some (.value (numeralValue word.text.toList))
  else some (.word word)

theorem item_symbol (text : String) :
    (symbol text).item? = if text ∈ punctuation then none else some (.word (symbol text)) := by
  simp [item?, symbol]

theorem item_keyword (text : String) : (keyword text).item? = some (.word (keyword text)) := rfl

theorem item_name (text : String) : (name text).item? = some (.word (name text)) := rfl

end Word

namespace Node

open Word in
mutual

def items : Node → List Item
  | block statements => itemsAll statements
  | ifThen condition positive => .word (keyword "if") :: (condition.items ++ positive.items)
  | ifElse condition positive negative =>
    .word (keyword "if") ::
      (condition.items ++ (positive.items ++ .word (keyword "else") :: negative.items))
  | whileLoop condition body => .word (keyword "while") :: (condition.items ++ body.items)
  | print expression => .word (keyword "print") :: expression.items
  | assign target expression => .word (name target) :: .word (symbol "=") :: expression.items
  | binary op left right => left.items ++ .word (symbol op.symbol) :: right.items
  | unary op operand => .word (symbol op.symbol) :: operand.items
  | reference text => [.word (name text)]
  | literal value => [.value value]

def itemsAll : List Node → List Item
  | [] => []
  | first :: rest => first.items ++ itemsAll rest

end

theorem items_of_statements (nodes : List Node) : (ofStatements nodes).items = itemsAll nodes := by
  by_cases single : nodes.length = 1
  · obtain ⟨node, rfl⟩ := List.length_eq_one_iff.mp single
    exact (List.append_nil _).symm
  · rw [of_statements_eq_block single, items]

end Node

def Phrase.items : Phrase → List Item
  | statements nodes => Node.itemsAll nodes
  | block _ node => node.items
  | statement _ node => node.items
  | expression node => node.items
  | binary _ node => node.items
  | unary node => node.items
  | factor node => node.items

theorem Phrase.items_operand (level : Level) (node : Node) :
    (operand level node).items = node.items := by
  cases level <;> rfl

/-- A phrase keeps the items of its words. -/
theorem Derives.items {phrase : Phrase} {spelling : List Word} (derives : Derives phrase spelling) :
    phrase.items = spelling.filterMap Word.item? := by
  induction derives with
  | none => rfl
  | more _ _ first later =>
    rw [List.filterMap_append, ← first, ← later]
    rfl
  | braces _ joined body =>
    rw [joined_iff.mp joined]
    simp [Word.item_symbol, punctuation, ← body, Phrase.items, Node.items_of_statements]
  | plain _ body | value _ body | unsigned _ body => exact body
  | print _ body | evaluate _ body | assign _ body | group _ body =>
    simp [Word.item_symbol, punctuation, Word.item_keyword, Word.item_name, ← body, Phrase.items,
      Node.items]
  | ifThen _ _ test body | whileLoop _ _ test body =>
    simp [Word.item_symbol, punctuation, Word.item_keyword, ← test, ← body, Phrase.items,
      Node.items]
  | ifElse _ _ _ test first second =>
    simp [Word.item_symbol, punctuation, Word.item_keyword, ← test, ← first, ← second, Phrase.items,
      Node.items]
  | apply op _ _ first second =>
    rw [Phrase.items_operand] at first
    simp [Word.item_symbol, op.symbol_not_punctuation, ← first, ← second, Phrase.items, Node.items]
  | single _ body => rw [← body, Phrase.items_operand, Phrase.items]
  | signed op _ body =>
    simp [Word.item_symbol, op.symbol_not_punctuation, ← body, Phrase.items, Node.items]
  | reference text => rfl
  | literal digits => rfl

/-- The words before the end of the file or the first closing brace that closes nothing, when
`depth` braces are open. There are none if the words run out before that. -/
def front? (depth : Nat) : List Word → Option (List Word)
  | [] => none
  | word :: rest =>
    if word.kind = .endOfFile then some []
    else if word = .symbol "\x7b" then (front? (depth + 1) rest).map (word :: ·)
    else if word = .symbol "\x7d" then
      if depth = 0 then some [] else (front? (depth - 1) rest).map (word :: ·)
    else (front? depth rest).map (word :: ·)

namespace Word

/-- The word neither ends the file nor opens or closes a brace. -/
def Neutral (word : Word) : Prop :=
  word.kind ≠ .endOfFile ∧ word ≠ symbol "\x7b" ∧ word ≠ symbol "\x7d"

@[simp] theorem neutral_keyword (text : String) : (keyword text).Neutral := by
  simp [Neutral, keyword, symbol]

@[simp] theorem neutral_name (text : String) : (name text).Neutral := by
  simp [Neutral, name, symbol]

@[simp] theorem neutral_numeral (digits : String) : (numeral digits).Neutral := by
  simp [Neutral, numeral, symbol]

end Word

/-- The front never ends within these words, and they leave as many braces open as they find. -/
def Balanced (spelling : List Word) : Prop :=
  ∀ depth rest, front? depth (spelling ++ rest) = (front? depth rest).map (spelling ++ ·)

namespace Balanced

variable {word : Word} {left right inner : List Word}

theorem nil : Balanced [] := by
  intro depth rest
  simp

theorem append (first : Balanced left) (second : Balanced right) : Balanced (left ++ right) := by
  intro depth rest
  rw [List.append_assoc, first depth, second depth, Option.map_map]
  simp [Function.comp_def]

theorem cons (neutral : word.Neutral) (later : Balanced right) : Balanced (word :: right) := by
  intro depth rest
  obtain ⟨unfinished, opens, closes⟩ := neutral
  rw [List.cons_append, front?, if_neg unfinished, if_neg opens, if_neg closes, later depth,
    Option.map_map]
  rfl

theorem braces (body : Balanced inner) :
    Balanced (.symbol "\x7b" :: inner ++ [.symbol "\x7d"]) := by
  intro depth rest
  have closed : front? (depth + 1) (.symbol "\x7d" :: rest) =
      (front? depth rest).map (.symbol "\x7d" :: ·) := by
    simp [front?, Word.symbol]
  calc
    front? depth (.symbol "\x7b" :: inner ++ [.symbol "\x7d"] ++ rest)
      = (front? (depth + 1) (inner ++ .symbol "\x7d" :: rest)).map (.symbol "\x7b" :: ·) := by
        simp [front?, Word.symbol]
    _ = (front? depth rest).map (.symbol "\x7b" :: inner ++ [.symbol "\x7d"] ++ ·) := by
        rw [body (depth + 1), closed, Option.map_map, Option.map_map]
        simp [Function.comp_def]

end Balanced

namespace Program

variable {source : String} {tokens : List Token} {tree : Node} {last : Token} {after : Scanner}

end Program

end WhileLang
