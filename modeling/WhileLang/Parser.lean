import WhileLang.Cursor
import WhileLang.Node
import WhileLang.Number.Numeral

/-!
# Parser

Recursive descent over a cursor, one function for each rule of the grammar:

    statements  := statement*                                     up to '}' or the end
    statement   := 'print' expression ';' | 'if' '(' expression ')' block ('else' block)?
                 | 'while' '(' expression ')' block | expression ';'
    block       := '{' statements '}' | statement
    expression  := name '=' expression | binary logical
    binary L    := operand (operator of L, binary L)?             operands bind tighter than L
    unary       := ('!' | '-') unary | factor
    factor      := name | numeral | '(' expression ')'

All binary operators group to the right. Whether a name is assigned to is decided by reading one
token too many and stepping back. Each rule spends one unit of a budget when it calls another;
`build` grants more than the tokens left can use up.
-/

namespace WhileLang

set_option autoImplicit false

/-- What a parser works on: the cursor, and every token read so far, the latest first. A token read
again after stepping back is listed again. -/
structure Reader where
  cursor : Cursor
  taken : List Token
  deriving Repr

abbrev Parser := EStateM Fault Reader

namespace Parser

def current : Parser Token := do
  return (← get).cursor.current

def advance : Parser Unit := fun reader =>
  match reader.cursor.advance with
  | (.ok _, cursor) => .ok () ⟨cursor, cursor.current :: reader.taken⟩
  | (.error fault, cursor) => .error fault { reader with cursor }

def rewind : Parser Unit :=
  modify fun reader => { reader with cursor := reader.cursor.rewind.2 }

def refuse {α : Type} (cause : Token → Cause) : Parser α := do
  let token ← current
  throw ⟨cause token, token.line, token.column⟩

def pass (symbol : String) : Parser Unit := do
  if (← current).isOperator symbol then advance
  else refuse (.missingOperator symbol)

def parenthesised (inner : Parser Node) : Parser Node := do
  pass "("
  let node ← inner
  pass ")"
  return node

def operator? {α : Type} (ofSymbol? : String → Option α) : Parser (Option α) := do
  let token ← current
  if token.kind = .operator then return ofSymbol? (token.text.getD "")
  else return none

mutual

def statements : Nat → Parser (List Node)
  | 0 => refuse fun _ => .budgetSpent
  | budget + 1 => do
    let token ← current
    if token.kind = .endOfFile || token.isOperator "\x7d" then return []
    else
      let first ← statement budget
      let rest ← statements budget
      return first :: rest

def block : Nat → Parser Node
  | 0 => refuse fun _ => .budgetSpent
  | budget + 1 => do
    if (← current).isOperator "\x7b" then
      advance
      let inner ← statements budget
      pass "\x7d"
      return .ofStatements inner
    else statement budget

def statement : Nat → Parser Node
  | 0 => refuse fun _ => .budgetSpent
  | budget + 1 => do
    let token ← current
    if token.kind ≠ .keyword then
      let node ← expression budget
      pass ";"
      return node
    else if token.isKeyword "print" then
      advance
      let node ← expression budget
      pass ";"
      return .print node
    else if token.isKeyword "if" then
      advance
      let condition ← parenthesised (expression budget)
      let positive ← block budget
      if (← current).isKeyword "else" then
        advance
        let negative ← block budget
        return .ifElse condition positive negative
      else return .ifThen condition positive
    else if token.isKeyword "while" then
      advance
      let condition ← parenthesised (expression budget)
      let body ← block budget
      return .whileLoop condition body
    else refuse .strayKeyword

def expression : Nat → Parser Node
  | 0 => refuse fun _ => .budgetSpent
  | budget + 1 => do
    let token ← current
    if token.kind = .identifier then
      advance
      if (← current).isOperator "=" then
        advance
        let value ← expression budget
        return .assign (token.text.getD "") value
      else
        rewind
        binary budget .logical
    else binary budget .logical

def binary : Nat → Level → Parser Node
  | 0, _ => refuse fun _ => .budgetSpent
  | budget + 1, level => do
    let left ←
      match level.tighter? with
      | some tighter => binary budget tighter
      | none => unary budget
    match ← operator? level.operator? with
    | some op =>
      advance
      let right ← binary budget level
      return .binary op left right
    | none => return left

def unary : Nat → Parser Node
  | 0 => refuse fun _ => .budgetSpent
  | budget + 1 => do
    match ← operator? UnaryOp.ofSymbol? with
    | some op =>
      advance
      let operand ← unary budget
      return .unary op operand
    | none => factor budget

def factor : Nat → Parser Node
  | 0 => refuse fun _ => .budgetSpent
  | budget + 1 => do
    let token ← current
    if token.kind = .identifier then
      advance
      return .reference (token.text.getD "")
    else if token.kind = .numeric then
      advance
      return .literal (numeralValue (token.text.getD "").toList)
    else if token.isOperator "(" then parenthesised (expression budget)
    else refuse .missingOperand

end

/-- Enough for a source of this many characters: it has no more tokens than characters and the end
of the file, and ten rules at most are nested between one token and the next. -/
def budgetFor (characters : Nat) : Nat :=
  16 * (characters + 2)

/-- The statements from the current token on, up to the end of the file or an unmatched brace. -/
def program (budget : Nat) : Parser Node := do
  return .ofStatements (← statements budget)

end Parser

/-- The outcome of parsing, and the tokens read on the way, in the order they were read. -/
structure Parsing where
  taken : List Token
  outcome : Except Fault Node

namespace Parsing

/-- Parses from where `cursor` stands. What follows an unmatched closing brace is not read. -/
def ofCursor (cursor : Cursor) : Parsing :=
  let budget := Parser.budgetFor cursor.scanner.rest.length
  match Parser.program budget ⟨cursor, []⟩ with
  | .ok node reader => ⟨reader.taken.reverse, .ok node⟩
  | .error fault reader => ⟨reader.taken.reverse, .error fault⟩

def ofString (source : String) : Parsing :=
  match Cursor.ofString source with
  | .ok cursor =>
    let parsing := ofCursor cursor
    { parsing with taken := cursor.current :: parsing.taken }
  | .error fault => ⟨[], .error fault⟩

end Parsing

def parse (source : String) : Except Fault Node :=
  (Parsing.ofString source).outcome

end WhileLang
