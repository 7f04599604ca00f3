import WhileLang.Number.Layout
import WhileLang.Operator

/-!
# Trees

The tree of a program. Statements and expressions share one type, because a statement list of one
element is that element, and because trees may also be built by hand.
-/

namespace WhileLang

set_option autoImplicit false

inductive Node where
  | block (statements : List Node)
  | ifThen (condition positive : Node)
  | ifElse (condition positive negative : Node)
  | whileLoop (condition body : Node)
  | print (expression : Node)
  | assign (name : String) (expression : Node)
  | binary (op : BinaryOp) (left right : Node)
  | unary (op : UnaryOp) (operand : Node)
  | reference (name : String)
  | literal (value : Float)
  deriving Inhabited

namespace Node

/-- Blocks, branches, loops and prints; all else is an expression. -/
def isStatement : Node → Bool
  | block _ | ifThen _ _ | ifElse _ _ _ | whileLoop _ _ | print _ => true
  | _ => false

/-- A list of exactly one statement is that statement. -/
def ofStatements : List Node → Node
  | [statement] => statement
  | statements => block statements

theorem of_statements_eq_block {nodes : List Node} (plural : nodes.length ≠ 1) :
    ofStatements nodes = .block nodes := by
  cases nodes with
  | nil => rfl
  | cons first rest =>
    cases rest with
    | nil => exact absurd rfl plural
    | cons second rest => rfl

/-- The text of a node as a statement: an expression is closed by a semicolon. -/
def closed (node : Node) (text : String) : String :=
  if node.isStatement then text else text ++ ";"

mutual

/-- Statements are written as in a program, expressions with all their parentheses. -/
def display : Node → String
  | block statements => "\x7b" ++ displayAll statements ++ " \x7d"
  | ifThen condition positive =>
    "if (" ++ condition.display ++ ") " ++ positive.closed positive.display
  | ifElse condition positive negative =>
    "if (" ++ condition.display ++ ") " ++ positive.closed positive.display ++ " else " ++
      negative.closed negative.display
  | whileLoop condition body =>
    "while (" ++ condition.display ++ ") " ++ body.closed body.display
  | print expression => "print " ++ expression.display ++ ";"
  | assign name expression => "(" ++ name ++ " = " ++ expression.display ++ ")"
  | binary op left right => "(" ++ left.display ++ " " ++ op.symbol ++ " " ++ right.display ++ ")"
  | unary op operand => "(" ++ op.symbol ++ operand.display ++ ")"
  | reference name => name
  | literal value => showNumber value

def displayAll : List Node → String
  | [] => ""
  | first :: rest => " " ++ first.closed first.display ++ displayAll rest

end

def displayStatement (node : Node) : String :=
  node.closed node.display

end Node

end WhileLang
