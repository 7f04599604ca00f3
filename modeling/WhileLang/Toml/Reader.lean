import WhileLang.Alphabet
import WhileLang.Number.Numeral
import WhileLang.Toml

/-!
# Reading TOML

The grammar of TOML 1.0 on characters. Arrays and tables between braces nest up to `nestingLimit`,
which is also the recursion bound; a key has no more parts than that.
-/

namespace WhileLang.Toml

set_option autoImplicit false

abbrev Reading := StateT (List Char) Option

namespace Reading

def nestingLimit : Nat := 79

/-- Reads as often as it can. Something that takes no character is not read. -/
def manyOn {α : Type} (item : Reading α) (text : List Char) : List α × List Char :=
  match item text with
  | none => ([], text)
  | some (first, rest) =>
    if _shorter : rest.length < text.length then
      let later := manyOn item rest
      (first :: later.1, later.2)
    else ([], text)
termination_by text.length

def many {α : Type} (item : Reading α) : Reading (List α) := fun text =>
  some (manyOn item text)

def maybe {α : Type} (item : Reading α) : Reading (Option α) := fun text =>
  match item text with
  | some (found, rest) => some (some found, rest)
  | none => some (none, text)

def one (accept : Char → Bool) : Reading Char := fun text =>
  match text with
  | first :: rest => if accept first then some (first, rest) else none
  | [] => none

def exactly (word : List Char) : Reading Unit := fun text =>
  if word.isPrefixOf text then some ((), text.drop word.length) else none

def atEnd : Reading Unit := fun text =>
  if text.isEmpty then some ((), text) else none

def run (accept : Char → Bool) : Reading (List Char) := fun text =>
  some (text.takeWhile accept, text.dropWhile accept)

def separated {α : Type} (item : Reading α) (separator : Reading Unit) : Reading (List α) := do
  let first ← item
  let rest ← many (do separator; item)
  return first :: rest

/-! ### Blanks and comments -/

def isSpace (char : Char) : Bool :=
  char = ' ' || char = '\t'

def isPlain (char : Char) : Bool :=
  char = '\t' || (0x20 ≤ char.toNat && char.toNat ≠ 0x7f)

def spaces : Reading Unit := do
  let _ ← run isSpace

def newline : Reading Unit :=
  exactly ['\n'] <|> exactly ['\r', '\n']

def comment : Reading Unit := do
  exactly ['#']
  let _ ← run isPlain

def lineEnd : Reading Unit := do
  spaces
  let _ ← maybe comment
  newline <|> atEnd

/-- Blanks between the elements of an array, which may go over several lines. -/
def gap : Reading Unit := do
  let _ ← many ((do let _ ← one isSpace) <|> (do let _ ← maybe comment; newline))

/-! ### Strings -/

def hexValue? (char : Char) : Option Nat :=
  if isDigit char then some (char.toNat - '0'.toNat)
  else if 'a' ≤ char && char ≤ 'f' then some (char.toNat - 'a'.toNat + 10)
  else if 'A' ≤ char && char ≤ 'F' then some (char.toNat - 'A'.toNat + 10)
  else none

/-- A character given by this many hex digits. Not every number is a character. -/
def codePoint (length : Nat) : Reading Char := fun text =>
  let digits := text.take length
  if digits.length < length then none
  else do
    let code ← digits.foldlM (fun code digit => (hexValue? digit).map (16 * code + ·)) 0
    if code.isValidChar then some (Char.ofNat code, text.drop length) else none

def escape : Reading Char := do
  exactly ['\\']
  match ← one fun _ => true with
  | 'b' => return '\x08'
  | 't' => return '\t'
  | 'n' => return '\n'
  | 'f' => return '\x0c'
  | 'r' => return '\r'
  | '"' => return '"'
  | '\\' => return '\\'
  | 'u' => codePoint 4
  | 'U' => codePoint 8
  | _ => failure

def basicString : Reading String := do
  exactly ['"']
  let content ← many (one (fun char => isPlain char && char ≠ '"' && char ≠ '\\') <|> escape)
  exactly ['"']
  return String.ofList content

def literalString : Reading String := do
  exactly ['\'']
  let content ← run fun char => isPlain char && char ≠ '\''
  exactly ['\'']
  return String.ofList content

/-- One or two quotes inside a string that three of them close. -/
def innerQuotes (quote : Char) : Reading (List Char) := fun text =>
  let quotes := text.takeWhile (· = quote)
  if quotes.length = 1 || quotes.length = 2 then some (quotes, text.drop quotes.length) else none

/-- The closing quotes, before which up to two more may stand as content. -/
def closingQuotes (quote : Char) : Reading (List Char) := fun text =>
  let count := min (text.takeWhile (· = quote)).length 5
  if 3 ≤ count then some (List.replicate (count - 3) quote, text.drop count) else none

/-- A backslash at the end of a line takes the blanks up to the next content with it. -/
def continuation : Reading (List Char) := do
  exactly ['\\']
  spaces
  newline
  let _ ← many ((do let _ ← one isSpace) <|> newline)
  return []

/-- A string over several lines. A line feed right behind the opening does not count. -/
def longString (quote : Char) (piece : Reading (List Char)) : Reading String := do
  exactly [quote, quote, quote]
  let _ ← maybe newline
  let pieces ← many (piece <|> (do newline; return ['\n']) <|> innerQuotes quote)
  let last ← closingQuotes quote
  return String.ofList (pieces.flatten ++ last)

def longBasicString : Reading String :=
  longString '"' ((do return [← one fun char => isPlain char && char ≠ '"' && char ≠ '\\']) <|>
    continuation <|> (do return [← escape]))

def longLiteralString : Reading String :=
  longString '\'' do return [← one fun char => isPlain char && char ≠ '\'']

def string : Reading String :=
  longBasicString <|> basicString <|> longLiteralString <|> literalString

/-! ### Keys -/

def isBareKey (char : Char) : Bool :=
  isNamePart char || char = '-'

def bareKey : Reading String := do
  let first ← one isBareKey
  let rest ← run isBareKey
  return String.ofList (first :: rest)

def keyPart : Reading String := do
  spaces
  let part ← basicString <|> literalString <|> bareKey
  spaces
  return part

def key : Reading Key := do
  let parts ← separated keyPart (exactly ['.'])
  match parts.getLast? with
  | some last =>
    if parts.length ≤ nestingLimit then return ⟨parts.dropLast, last⟩ else failure
  | none => failure

/-! ### Numbers and dates -/

/-- Digits of a base, with single underscores between them that do not count. -/
def digits (accept : Char → Bool) : Reading (List Char) := do
  let first ← one accept
  let rest ← many ((do let _ ← exactly ['_']; one accept) <|> one accept)
  return first :: rest

def sign : Reading Bool :=
  (do exactly ['-']; return true) <|> (do exactly ['+']; return false) <|> return false

/-- The part before the point. It has no leading zeros. -/
def wholeDigits : Reading (List Char) :=
  (do exactly ['0']; return ['0']) <|> digits isDigit

/-- Integers have 64 bits. -/
def bounded (value : Int) : Reading Toml :=
  if -0x8000000000000000 ≤ value && value < 0x8000000000000000 then
    return .integer value
  else
    failure

def based (mark : Char) (base : Nat) : Reading Toml := do
  exactly ['0', mark]
  let found ← digits fun char => match hexValue? char with
    | some value => value < base
    | none => false
  bounded (found.foldl (fun value digit => base * value + (hexValue? digit).getD 0) 0 : Nat)

def integer : Reading Toml :=
  based 'x' 16 <|> based 'o' 8 <|> based 'b' 2 <|> do
    let negative ← sign
    let value : Int := digitsValue (← wholeDigits)
    bounded (if negative then -value else value)

def exponent : Reading Int := do
  let _ ← one fun char => char = 'e' || char = 'E'
  let negative ← sign
  let value : Int := digitsValue (← digits isDigit)
  return if negative then -value else value

def fraction : Reading (List Char) := do
  exactly ['.']
  digits isDigit

/-- A number with a point or an exponent. One that rounds to positive infinity is refused. -/
def decimal : Reading Toml := do
  let negative ← sign
  let whole ← wholeDigits
  let places ← maybe fraction
  let power ← if places.isSome then maybe exponent else some <$> exponent
  let behind := places.getD []
  let decimal : Decimal := ⟨digitsValue (whole ++ behind), power.getD 0 - behind.length⟩
  if decimal.code = Magnitude.infinity && !negative then failure
  else return .float (decimal.toFloat negative)

def special : Reading Toml := do
  let negative ← sign
  let code ←
    (do exactly ['i', 'n', 'f']; return Magnitude.infinity) <|>
      (do exactly ['n', 'a', 'n']; return Magnitude.infinity + Magnitude.stride / 2)
  return .float (floatOfMagnitude negative code)

def field (length low high : Nat) : Reading Nat := fun text =>
  let found := text.take length
  let value := digitsValue found
  if found.length = length && found.all isDigit && low ≤ value && value ≤ high then
    some (value, text.drop length)
  else none

def daysIn (year month : Nat) : Nat :=
  if month = 2 then
    if year % 4 = 0 && (year % 100 ≠ 0 || year % 400 = 0) then 29 else 28
  else if month = 4 || month = 6 || month = 9 || month = 11 then 30
  else 31

def date : Reading Unit := do
  let year ← field 4 0 9999
  exactly ['-']
  let month ← field 2 1 12
  exactly ['-']
  let _ ← field 2 1 (daysIn year month)

def time : Reading Unit := do
  let _ ← field 2 0 23
  exactly [':']
  let _ ← field 2 0 59
  exactly [':']
  let _ ← field 2 0 60
  let _ ← maybe (do
    exactly ['.']
    let _ ← one isDigit
    run isDigit)

def offset : Reading Unit :=
  (do let _ ← one fun char => char = 'Z' || char = 'z') <|> do
    let _ ← one fun char => char = '+' || char = '-'
    let _ ← field 2 0 23
    exactly [':']
    let _ ← field 2 0 59

def moment : Reading Toml := do
  (do
    date
    let _ ← maybe (do
      let _ ← one fun char => char = 'T' || char = 't' || char = ' '
      time
      maybe offset)) <|> time
  return .moment

/-! ### Values and lines -/

def boolean : Reading Toml :=
  (do exactly "true".toList; return .boolean true) <|>
    (do exactly "false".toList; return .boolean false)

def scalar : Reading Toml :=
  (do return .text (← string)) <|> moment <|> decimal <|> special <|> integer <|> boolean

/-- An array of what `element` reads. A comma may follow the last element. -/
def arrayOf (element : Reading Toml) : Reading Toml := do
  exactly ['[']
  let elements ← maybe (separated (do gap; let value ← element; gap; return value) (exactly [',']))
  if elements.isSome then
    let _ ← maybe (exactly [','])
  gap
  exactly [']']
  return .array (elements.getD [])

def pairOf (element : Reading Toml) : Reading (Key × Toml) := do
  let name ← key
  exactly ['=']
  spaces
  let value ← element
  return (name, value)

/-- A table between braces, on one line and without a comma behind the last pair. -/
def inlineOf (element : Reading Toml) : Reading Toml := do
  exactly ['\x7b']
  let pairs ← maybe
    (separated (do let pair ← pairOf element; spaces; return pair) (exactly [',']))
  spaces
  exactly ['\x7d']
  match inline? (pairs.getD []) with
  | some made => return made
  | none => failure

def value : Nat → Reading Toml
  | 0 => scalar
  | depth + 1 => arrayOf (value depth) <|> inlineOf (value depth) <|> scalar

def header : Reading Line := do
  exactly ['[']
  let name ← key
  exactly [']']
  return .header name

def repeatedHeader : Reading Line := do
  exactly ['[', '[']
  let name ← key
  exactly [']', ']']
  return .repeated name

def pair : Reading Line := do
  let (name, found) ← pairOf (value nestingLimit)
  return .pair name found

def line : Reading Line := do
  spaces
  let content ← repeatedHeader <|> header <|> pair <|> return .blank
  lineEnd
  return content

/-- The entries of a document. A byte order mark in front does not count. -/
def document? (text : String) : Option Entries :=
  let chars := text.toList
  let chars := if chars.head? = some '\ufeff' then chars.tail else chars
  let (lines, rest) := manyOn line chars
  if rest.all isSpace then ofLines? lines else none

end Reading

end WhileLang.Toml
