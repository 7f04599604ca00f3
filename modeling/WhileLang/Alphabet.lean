/-!
# Alphabet

The classes of characters that programs are made of. Names and numerals are plain ASCII; any other
character is a token of its own.
-/

namespace WhileLang

set_option autoImplicit false

/-- Characters that separate tokens and mean nothing else. -/
def isBlank (char : Char) : Bool :=
  char = ' ' || char = '\t' || char = '\n' || char = '\r'

def isDigit (char : Char) : Bool :=
  '0' ≤ char && char ≤ '9'

def isNameStart (char : Char) : Bool :=
  char = '_' || ('a' ≤ char && char ≤ 'z') || ('A' ≤ char && char ≤ 'Z')

def isNamePart (char : Char) : Bool :=
  isNameStart char || isDigit char

def isOperatorStart (char : Char) : Bool :=
  ['!', '(', ')', '+', '-', '/', '*', '=', '&', '|', '{', '}', '<', '>', ';'].contains char

def isOperatorPair (first second : Char) : Bool :=
  (second = '=' && (first = '=' || first = '!' || first = '<' || first = '>')) ||
    (first = '&' && second = '&') || (first = '|' && second = '|')

end WhileLang
