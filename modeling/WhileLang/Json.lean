import WhileLang.Number.Layout

/-!
# JSON documents

Documents and their two texts: compact, without any blank, and indented by two spaces a level.
-/

namespace WhileLang

set_option autoImplicit false

inductive Json where
  | null
  | number (value : Float)
  | string (text : String)
  | array (elements : List Json)
  | object (members : List (String × Json))
  deriving Inhabited

namespace Json

def hexDigit (value : Nat) : Char :=
  if value < 10 then Char.ofNat ('0'.toNat + value) else Char.ofNat ('a'.toNat + (value - 10))

/-- A character inside a string literal. Control characters, the quote and the backslash are
escaped, all else stands for itself. -/
def escape (char : Char) : List Char :=
  match char with
  | '"' => ['\\', '"']
  | '\\' => ['\\', '\\']
  | '\n' => ['\\', 'n']
  | '\r' => ['\\', 'r']
  | '\t' => ['\\', 't']
  | '\x08' => ['\\', 'b']
  | '\x0c' => ['\\', 'f']
  | _ =>
    if char.toNat < 32 then
      ['\\', 'u', '0', '0', hexDigit (char.toNat / 16), hexDigit (char.toNat % 16)]
    else [char]

def quote (text : String) : String :=
  "\"" ++ String.ofList (text.toList.flatMap escape) ++ "\""

mutual

def compact : Json → String
  | null => "null"
  | number value => NumberStyle.json.write value
  | string text => quote text
  | array [] => "[]"
  | array (first :: rest) => "[" ++ first.compact ++ compactElements rest ++ "]"
  | object [] => "\x7b\x7d"
  | object ((key, value) :: rest) =>
    "\x7b" ++ quote key ++ ":" ++ value.compact ++ compactMembers rest ++ "\x7d"

def compactElements : List Json → String
  | [] => ""
  | first :: rest => "," ++ first.compact ++ compactElements rest

def compactMembers : List (String × Json) → String
  | [] => ""
  | (key, value) :: rest => "," ++ quote key ++ ":" ++ value.compact ++ compactMembers rest

end

def newline (depth : Nat) : String :=
  "\n" ++ String.ofList (List.replicate (2 * depth) ' ')

mutual

/-- The indented text of a document that stands at this depth. Empty lists stay on one line. -/
def prettyAt (depth : Nat) : Json → String
  | null => "null"
  | number value => NumberStyle.json.write value
  | string text => quote text
  | array [] => "[]"
  | array (first :: rest) =>
    "[" ++ newline (depth + 1) ++ first.prettyAt (depth + 1) ++ prettyElements (depth + 1) rest ++
      newline depth ++ "]"
  | object [] => "\x7b\x7d"
  | object ((key, value) :: rest) =>
    "\x7b" ++ newline (depth + 1) ++ quote key ++ ": " ++ value.prettyAt (depth + 1) ++
      prettyMembers (depth + 1) rest ++ newline depth ++ "\x7d"

def prettyElements (depth : Nat) : List Json → String
  | [] => ""
  | first :: rest => "," ++ newline depth ++ first.prettyAt depth ++ prettyElements depth rest

def prettyMembers (depth : Nat) : List (String × Json) → String
  | [] => ""
  | (key, value) :: rest =>
    "," ++ newline depth ++ quote key ++ ": " ++ value.prettyAt depth ++ prettyMembers depth rest

end

def pretty (document : Json) : String :=
  document.prettyAt 0

end Json

end WhileLang
