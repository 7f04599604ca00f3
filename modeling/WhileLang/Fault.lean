import WhileLang.Token

/-!
# Faults

Why a source text is refused. A fault has one cause and the place it is reported at; its wording is
in `Cause.message` alone.
-/

namespace WhileLang

set_option autoImplicit false

inductive Origin where
  | lexer
  | parser
  deriving DecidableEq, Repr

def Origin.name : Origin → String
  | .lexer => "Lexer"
  | .parser => "Parser"

structure Diagnostic where
  origin : Origin
  message : String
  line : Option UInt64
  column : Option UInt64
  deriving DecidableEq, Repr

/-- A column is shown only together with its line. -/
def Diagnostic.display (diagnostic : Diagnostic) : String :=
  let place :=
    match diagnostic.line, diagnostic.column with
    | some line, some column => " (line " ++ toString line ++ ", column " ++ toString column ++ ")"
    | some line, none => " (line " ++ toString line ++ ")"
    | none, _ => ""
  diagnostic.origin.name ++ " error: " ++ diagnostic.message ++ place

inductive Cause where
  /-- A `&` or `|` that is not doubled. -/
  | unknownOperator (symbol : Char)
  /-- Another token stands where this operator has to stand. -/
  | missingOperator (symbol : String) (found : Token)
  /-- No operand starts with this token. -/
  | missingOperand (found : Token)
  /-- No statement starts with this keyword. -/
  | strayKeyword (found : Token)
  /-- The recursion budget of the parser is used up. -/
  | budgetSpent
  deriving DecidableEq, Repr

def Cause.origin : Cause → Origin
  | .unknownOperator _ => .lexer
  | _ => .parser

def Cause.message : Cause → String
  | .unknownOperator symbol => "unknown operator \"" ++ symbol.toString ++ "\""
  | .missingOperator symbol found =>
    "expected " ++ TokenKind.operator.describe (some symbol) ++ ", but found " ++ found.describe
  | .missingOperand found => "expected a variable, number or '(', but found " ++ found.describe
  | .strayKeyword found => "invalid statement: unexpected " ++ found.describe
  | .budgetSpent => "nesting too deep"

structure Fault where
  cause : Cause
  line : UInt64
  column : UInt64
  deriving DecidableEq, Repr

namespace Fault

def diagnostic (fault : Fault) : Diagnostic :=
  ⟨fault.cause.origin, fault.cause.message, some fault.line, some fault.column⟩

def display (fault : Fault) : String :=
  fault.diagnostic.display

end Fault

end WhileLang
