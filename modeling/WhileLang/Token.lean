/-!
# Tokens

A program is read as a stream of tokens. A token keeps its text and the place of its first
character; the token that closes the stream has no text.
-/

namespace WhileLang

set_option autoImplicit false

inductive TokenKind where
  | unknown
  | numeric
  | identifier
  | operator
  | keyword
  | endOfFile
  deriving DecidableEq, Repr

def TokenKind.name : TokenKind → String
  | .unknown => "unknown"
  | .numeric => "numeric"
  | .identifier => "identifier"
  | .operator => "operator"
  | .keyword => "keyword"
  | .endOfFile => "end of file"

/-- How messages speak of a kind of token, with its text if there is one. -/
def TokenKind.describe (kind : TokenKind) : Option String → String
  | some text => "\"" ++ kind.name ++ "\" (" ++ text ++ ")"
  | none => "\"" ++ kind.name ++ "\""

structure Token where
  kind : TokenKind
  text : Option String
  line : UInt64
  column : UInt64
  deriving DecidableEq, Repr

namespace Token

def is (token : Token) (kind : TokenKind) (text : Option String) : Bool :=
  token.kind == kind && (text.isNone || token.text == text)

def isOperator (token : Token) (symbol : String) : Bool :=
  token.is .operator (some symbol)

def isKeyword (token : Token) (word : String) : Bool :=
  token.is .keyword (some word)

def describe (token : Token) : String :=
  token.kind.describe token.text

end Token

def keywords : List String := ["if", "else", "while", "print"]

end WhileLang
