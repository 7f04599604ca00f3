import WhileLang.Alphabet
import WhileLang.Fault

/-!
# Scanner

A scanner is the text still to be read together with the place it starts at. Whoever knows the
source need only keep the place: the scanner is taken up again from there (`Scanner.resume`).

The lexeme at the front of a text depends on nothing but that text (`lexeme`). `Scanner.next` skips
blanks, takes the lexeme and moves the place over what it took.
-/

namespace WhileLang

set_option autoImplicit false

/-- A place in a source: how many characters stand before it, and its line and column from 1. Lines
and columns are machine words and start over behind the largest one. The offset only grows over a
character that is there, and so never gets that far. -/
structure Place where
  offset : Nat
  line : UInt64
  column : UInt64
  deriving DecidableEq, Repr

namespace Place

def start : Place := ⟨0, 1, 1⟩

/-- The place behind `char`. Only a line feed starts a new line. -/
def after (place : Place) (char : Char) : Place :=
  if char = '\n' then ⟨place.offset + 1, place.line + 1, 1⟩
  else ⟨place.offset + 1, place.line, place.column + 1⟩

def afterAll (place : Place) (text : List Char) : Place :=
  text.foldl after place

theorem after_all_offset (place : Place) (text : List Char) :
    (place.afterAll text).offset = place.offset + text.length := by
  induction text generalizing place with
  | nil => rfl
  | cons char text induction =>
    have step : (place.after char).offset = place.offset + 1 := by
      unfold after
      split <;> rfl
    have rest := induction (place.after char)
    rw [step] at rest
    rw [List.length_cons]
    exact rest.trans (by omega)

end Place

inductive Lexeme where
  | token (kind : TokenKind) (text : List Char)
  /-- A `&` or `|` that is not doubled. -/
  | lone (symbol : Char)
  | finished
  deriving DecidableEq, Repr

def operatorLexeme (first : Char) (rest : List Char) : Lexeme :=
  match rest.head? with
  | some second =>
    if isOperatorPair first second then .token .operator [first, second]
    else if first = '&' || first = '|' then .lone first
    else .token .operator [first]
  | none => if first = '&' || first = '|' then .lone first else .token .operator [first]

/-- A name is a keyword exactly if it is one of `keywords`. -/
def nameKind (name : List Char) : TokenKind :=
  if keywords.contains (String.ofList name) then .keyword else .identifier

/-- Names and numerals are taken as long as they go. -/
def lexeme : List Char → Lexeme
  | [] => .finished
  | first :: rest =>
    if isNameStart first then
      let name := (first :: rest).takeWhile isNamePart
      .token (nameKind name) name
    else if isDigit first then .token .numeric ((first :: rest).takeWhile isDigit)
    else if isOperatorStart first then operatorLexeme first rest
    else .token .unknown [first]

structure Scanner where
  rest : List Char
  place : Place
  deriving DecidableEq, Repr

namespace Scanner

def ofString (source : String) : Scanner :=
  ⟨source.toList, Place.start⟩

/-- The scanner over `source` that claims to stand at `place`. Past the end nothing is left. -/
def resume (source : List Char) (place : Place) : Scanner :=
  ⟨source.drop place.offset, place⟩

theorem resume_start (source : String) : resume source.toList Place.start = ofString source := rfl

def peek (scanner : Scanner) : Option Char :=
  scanner.rest.head?

def forward (scanner : Scanner) (count : Nat) : Scanner :=
  ⟨scanner.rest.drop count, scanner.place.afterAll (scanner.rest.take count)⟩

def consume (scanner : Scanner) : Option Char × Scanner :=
  (scanner.peek, scanner.forward 1)

def skipBlanks (scanner : Scanner) : Scanner :=
  scanner.forward (scanner.rest.takeWhile isBlank).length

/-- The next token. A lone `&` or `|` is a fault at its own place, and the scanner goes on behind
it. -/
def next (scanner : Scanner) : Except Fault Token × Scanner :=
  let start := scanner.skipBlanks
  let line := start.place.line
  let column := start.place.column
  match lexeme start.rest with
  | .token kind text =>
    (.ok ⟨kind, some (String.ofList text), line, column⟩, start.forward text.length)
  | .lone symbol => (.error ⟨.unknownOperator symbol, line, column⟩, start.forward 1)
  | .finished => (.ok ⟨.endOfFile, none, line, column⟩, start)

/-- A scanner that stands in `source` still does so when it has moved on. -/
theorem forward_resumes {source : List Char} {scanner : Scanner}
    (stands : resume source scanner.place = scanner) (count : Nat) :
    resume source (scanner.forward count).place = scanner.forward count := by
  have ahead : scanner.rest = source.drop scanner.place.offset := congrArg rest stands.symm
  rw [resume, forward, Place.after_all_offset, List.length_take, ahead, List.length_drop,
    List.drop_drop]
  congr 1
  -- Moving on beyond the end comes to a stop there.
  by_cases within : count ≤ source.length - scanner.place.offset
  · rw [Nat.min_eq_left within]
  · rw [List.drop_eq_nil_of_le (by omega), List.drop_eq_nil_of_le (by omega)]

theorem next_resumes {source : List Char} {scanner : Scanner}
    (stands : resume source scanner.place = scanner) :
    resume source scanner.next.2.place = scanner.next.2 := by
  have skipped : resume source scanner.skipBlanks.place = scanner.skipBlanks :=
    forward_resumes stands _
  unfold next
  dsimp only
  split
  · exact forward_resumes skipped _
  · exact forward_resumes skipped _
  · exact skipped

theorem length_forward (scanner : Scanner) (count : Nat) :
    (scanner.forward count).rest.length = scanner.rest.length - count := by
  simp [forward]

theorem take_while_ne_nil (accept : Char → Bool) (first : Char) (rest : List Char)
    (accepted : accept first = true) : (first :: rest).takeWhile accept ≠ [] := by
  simp [accepted]

theorem lexeme_text_ne_nil {source : List Char} {kind : TokenKind} {text : List Char}
    (found : lexeme source = .token kind text) : text ≠ [] := by
  cases source with
  | nil => simp [lexeme] at found
  | cons first rest =>
    unfold lexeme operatorLexeme at found
    grind [take_while_ne_nil, isNamePart]

theorem lexeme_nil : lexeme [] = .finished := rfl

theorem next_shortens {scanner after : Scanner} {token : Token}
    (taken : scanner.next = (.ok token, after)) (unfinished : token.kind ≠ .endOfFile) :
    after.rest.length < scanner.rest.length := by
  have skipped : scanner.skipBlanks.rest.length ≤ scanner.rest.length := by
    simp [skipBlanks, length_forward]
  unfold next at taken
  cases found : lexeme scanner.skipBlanks.rest with
  | finished =>
    simp only [found, Prod.mk.injEq, Except.ok.injEq] at taken
    exact absurd (by rw [← taken.1]) unfinished
  | lone symbol => simp [found] at taken
  | token kind text =>
    simp only [found, Prod.mk.injEq, Except.ok.injEq] at taken
    have nonempty : scanner.skipBlanks.rest ≠ [] := by
      intro nothing
      simp [nothing, lexeme_nil] at found
    have positive := List.length_pos_iff.2 nonempty
    have textPositive := List.length_pos_iff.2 (lexeme_text_ne_nil found)
    rw [← taken.2, length_forward]
    omega

end Scanner

structure Tokens where
  tokens : List Token
  failure : Option Fault
  scanner : Scanner
  deriving Repr

/-- Reads on until the end of the file, which is the last token, or the first fault. -/
def Scanner.readAll (scanner : Scanner) : Tokens :=
  match taken : scanner.next with
  | (.error fault, after) => ⟨[], some fault, after⟩
  | (.ok token, after) =>
    if unfinished : token.kind = .endOfFile then ⟨[token], none, after⟩
    else
      have : after.rest.length < scanner.rest.length := next_shortens taken unfinished
      let later := after.readAll
      { later with tokens := token :: later.tokens }
termination_by scanner.rest.length

end WhileLang
