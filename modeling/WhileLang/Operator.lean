/-!
# Operators

The binary operators bind at four levels, each loosest first: logical, comparison, arithmetic, term.
Truth is carried by numbers: zero of either sign and NaN are false, all else is true.
-/

namespace WhileLang

set_option autoImplicit false

def isTrue (value : Float) : Bool :=
  value != 0 && !value.isNaN

def ofTruth (truth : Bool) : Float :=
  if truth then 1 else 0

inductive LogicalOp where
  | and
  | or
  deriving DecidableEq, Repr

namespace LogicalOp

def symbol : LogicalOp → String
  | and => "&&"
  | or => "||"

def ofSymbol? : String → Option LogicalOp
  | "&&" => some and
  | "||" => some or
  | _ => none

def name : LogicalOp → String
  | and => "And"
  | or => "Or"

/-- The left operand alone decides. -/
def isSettledBy : LogicalOp → Bool → Bool
  | and, left => !left
  | or, left => left

end LogicalOp

inductive ComparisonOp where
  | eq
  | ne
  | gt
  | ge
  | lt
  | le
  deriving DecidableEq, Repr

namespace ComparisonOp

def symbol : ComparisonOp → String
  | eq => "=="
  | ne => "!="
  | gt => ">"
  | ge => ">="
  | lt => "<"
  | le => "<="

def ofSymbol? : String → Option ComparisonOp
  | "==" => some eq
  | "!=" => some ne
  | ">" => some gt
  | ">=" => some ge
  | "<" => some lt
  | "<=" => some le
  | _ => none

def name : ComparisonOp → String
  | eq => "Eq"
  | ne => "Ne"
  | gt => "Gt"
  | ge => "Ge"
  | lt => "Lt"
  | le => "Le"

def apply : ComparisonOp → Float → Float → Bool
  | eq, left, right => left == right
  | ne, left, right => left != right
  | gt, left, right => right < left
  | ge, left, right => right ≤ left
  | lt, left, right => left < right
  | le, left, right => left ≤ right

end ComparisonOp

inductive ArithmeticOp where
  | add
  | sub
  deriving DecidableEq, Repr

namespace ArithmeticOp

def symbol : ArithmeticOp → String
  | add => "+"
  | sub => "-"

def ofSymbol? : String → Option ArithmeticOp
  | "+" => some add
  | "-" => some sub
  | _ => none

def name : ArithmeticOp → String
  | add => "Add"
  | sub => "Sub"

def apply : ArithmeticOp → Float → Float → Float
  | add, left, right => left + right
  | sub, left, right => left - right

end ArithmeticOp

inductive TermOp where
  | mul
  | div
  deriving DecidableEq, Repr

namespace TermOp

def symbol : TermOp → String
  | mul => "*"
  | div => "/"

def ofSymbol? : String → Option TermOp
  | "*" => some mul
  | "/" => some div
  | _ => none

def name : TermOp → String
  | mul => "Mul"
  | div => "Div"

def apply : TermOp → Float → Float → Float
  | mul, left, right => left * right
  | div, left, right => left / right

end TermOp

inductive UnaryOp where
  | not
  | neg
  deriving DecidableEq, Repr

namespace UnaryOp

def symbol : UnaryOp → String
  | not => "!"
  | neg => "-"

def ofSymbol? : String → Option UnaryOp
  | "!" => some not
  | "-" => some neg
  | _ => none

def name : UnaryOp → String
  | not => "Not"
  | neg => "Neg"

def apply : UnaryOp → Float → Float
  | not, value => ofTruth (!isTrue value)
  | neg, value => -value

end UnaryOp

inductive Level where
  | logical
  | comparison
  | arithmetic
  | term
  deriving DecidableEq, Repr

/-- The next tighter level. The operands of the tightest one are unary expressions. -/
def Level.tighter? : Level → Option Level
  | logical => some comparison
  | comparison => some arithmetic
  | arithmetic => some term
  | term => none

inductive BinaryOp where
  | logical (op : LogicalOp)
  | comparison (op : ComparisonOp)
  | arithmetic (op : ArithmeticOp)
  | term (op : TermOp)
  deriving DecidableEq, Repr

namespace BinaryOp

def level : BinaryOp → Level
  | logical _ => .logical
  | comparison _ => .comparison
  | arithmetic _ => .arithmetic
  | term _ => .term

def symbol : BinaryOp → String
  | logical op => op.symbol
  | comparison op => op.symbol
  | arithmetic op => op.symbol
  | term op => op.symbol

def name : BinaryOp → String
  | logical op => op.name
  | comparison op => op.name
  | arithmetic op => op.name
  | term op => op.name

end BinaryOp

def Level.operator? : Level → String → Option BinaryOp
  | logical, symbol => (LogicalOp.ofSymbol? symbol).map .logical
  | comparison, symbol => (ComparisonOp.ofSymbol? symbol).map .comparison
  | arithmetic, symbol => (ArithmeticOp.ofSymbol? symbol).map .arithmetic
  | term, symbol => (TermOp.ofSymbol? symbol).map .term

end WhileLang
