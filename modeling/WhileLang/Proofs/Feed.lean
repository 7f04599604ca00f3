import Mathlib
import WhileLang.Cursor

/-!
# Feeds

A feed is all that a scanner will still yield, laid out as a value: tokens one after another, and at
last the end of the file, for ever, or a fault. Reading a grammar needs no more of a token than its
kind and its text, which is its word, and no more of a feed than the sign it starts with.
-/

namespace WhileLang

set_option autoImplicit false

/-- A token without its place. The end of the file has an empty text. -/
structure Word where
  kind : TokenKind
  text : String
  deriving DecidableEq, Repr

namespace Word

def symbol (text : String) : Word := ⟨.operator, text⟩

def keyword (text : String) : Word := ⟨.keyword, text⟩

def name (text : String) : Word := ⟨.identifier, text⟩

def numeral (digits : String) : Word := ⟨.numeric, digits⟩

end Word

namespace Token

def word (token : Token) : Word :=
  ⟨token.kind, token.text.getD ""⟩

theorem is_iff_word (token : Token) (kind : TokenKind) (text : String) (nonempty : text ≠ "") :
    token.is kind (some text) = true ↔ token.word = ⟨kind, text⟩ := by
  cases found : token.text with
  | none => simp [is, word, found, nonempty.symm]
  | some other => simp [is, word, found]

theorem is_operator_iff (token : Token) (symbol : String) (nonempty : symbol ≠ "") :
    token.isOperator symbol = true ↔ token.word = Word.symbol symbol :=
  token.is_iff_word .operator symbol nonempty

theorem is_keyword_iff (token : Token) (text : String) (nonempty : text ≠ "") :
    token.isKeyword text = true ↔ token.word = Word.keyword text :=
  token.is_iff_word .keyword text nonempty

theorem name_word {token : Token} (name : token.kind = .identifier) :
    Word.name token.word.text = token.word := by
  simp [Word.name, word, name]

end Token

def words (tokens : List Token) : List Word :=
  tokens.map Token.word

@[simp] theorem words_nil : words [] = [] := rfl

@[simp] theorem words_cons (token : Token) (tokens : List Token) :
    words (token :: tokens) = token.word :: words tokens := rfl

@[simp] theorem words_append (left right : List Token) :
    words (left ++ right) = words left ++ words right := by
  simp [words]

theorem words_eq_append {tokens : List Token} {front back : List Word}
    (same : words tokens = front ++ back) :
    ∃ left right, tokens = left ++ right ∧ words left = front ∧ words right = back := by
  obtain ⟨left, right, split, first, second⟩ := List.map_eq_append_iff.mp same
  exact ⟨left, right, split, first, second⟩

theorem words_eq_cons {tokens : List Token} {front : Word} {back : List Word}
    (same : words tokens = front :: back) :
    ∃ token rest, tokens = token :: rest ∧ token.word = front ∧ words rest = back := by
  obtain ⟨token, rest, split, first, second⟩ := List.map_eq_cons_iff.mp same
  exact ⟨token, rest, split, first, second⟩

theorem words_eq_singleton {tokens : List Token} {word : Word} (same : words tokens = [word]) :
    ∃ token, tokens = [token] ∧ token.word = word := by
  obtain ⟨token, rest, rfl, first, empty⟩ := words_eq_cons same
  rw [List.map_eq_nil_iff.mp empty]
  exact ⟨token, rfl, first⟩

inductive Feed where
  | token (token : Token) (rest : Feed)
  /-- The end of the file, which is yielded again and again. -/
  | finish (token : Token)
  | fault (fault : Fault)

inductive Sign where
  | word (word : Word)
  | finish
  | fault (cause : Cause)
  deriving DecidableEq

namespace Feed

/-- How many tokens stand before the end of the file or the fault. -/
def length : Feed → Nat
  | token _ rest => rest.length + 1
  | finish _ => 0
  | fault _ => 0

def sign : Feed → Sign
  | token current _ => .word current.word
  | finish _ => .finish
  | fault found => .fault found.cause

def prepend (tokens : List Token) (tail : Feed) : Feed :=
  tokens.foldr token tail

@[simp] theorem prepend_nil (tail : Feed) : prepend [] tail = tail := rfl

@[simp] theorem prepend_cons (token : Token) (tokens : List Token) (tail : Feed) :
    prepend (token :: tokens) tail = .token token (prepend tokens tail) := rfl

theorem prepend_append (left right : List Token) (tail : Feed) :
    prepend (left ++ right) tail = prepend left (prepend right tail) := by
  simp [prepend]

@[simp] theorem length_prepend (tokens : List Token) (tail : Feed) :
    (prepend tokens tail).length = tokens.length + tail.length := by
  induction tokens with
  | nil => simp
  | cons token tokens induction =>
    simp only [prepend_cons, length, List.length_cons, induction]
    omega

theorem length_lt_prepend {tokens : List Token} {first : Word} {others : List Word}
    (spelled : words tokens = first :: others) (tail : Feed) :
    tail.length < (prepend tokens tail).length := by
  have lengths := congrArg List.length spelled
  simp only [words, List.length_map, List.length_cons] at lengths
  rw [length_prepend]
  omega

/-- Of two ways to cut a feed, the one with the shorter tail cuts the longer tail as well. -/
theorem prepend_eq_prepend {left right : List Token} {bottom tail : Feed}
    (shorter : bottom.length ≤ tail.length) (same : prepend left bottom = prepend right tail) :
    ∃ more, left = right ++ more ∧ tail = prepend more bottom := by
  induction right generalizing left with
  | nil => exact ⟨left, rfl, same.symm⟩
  | cons other right induction =>
    cases left with
    | nil =>
      have lengths := congrArg length same
      simp only [length_prepend, List.length_nil, List.length_cons] at lengths
      omega
    | cons token left =>
      simp only [prepend_cons, Feed.token.injEq] at same
      obtain ⟨more, rfl, split⟩ := induction same.2
      exact ⟨more, by rw [same.1, List.cons_append], split⟩

theorem prepend_left_cancel {left right : List Token} {tail : Feed}
    (same : prepend left tail = prepend right tail) : left = right := by
  obtain ⟨more, rfl, split⟩ := prepend_eq_prepend (Nat.le_refl _) same
  have lengths := congrArg length split
  rw [length_prepend] at lengths
  have empty : more = [] := List.length_eq_zero_iff.mp (by omega)
  rw [empty, List.append_nil]

/-- The sign in front of a prepended feed depends on nothing but words and the sign behind them. -/
theorem sign_prepend_congr {left right : List Token} {first second : Feed}
    (sameWords : words left = words right) (sameSign : first.sign = second.sign) :
    (prepend left first).sign = (prepend right second).sign := by
  cases left with
  | nil =>
    cases right with
    | nil => exact sameSign
    | cons token right => simp at sameWords
  | cons token left =>
    cases right with
    | nil => simp at sameWords
    | cons other right =>
      simp only [words_cons, List.cons.injEq] at sameWords
      simp only [prepend_cons, sign, sameWords.1]

def tokens : Feed → List Token
  | token current rest => current :: rest.tokens
  | finish last => [last]
  | fault _ => []

def failure : Feed → Option Fault
  | token _ rest => rest.failure
  | finish _ => none
  | fault found => some found

theorem tokens_prepend (front : List Token) (tail : Feed) :
    (prepend front tail).tokens = front ++ tail.tokens := by
  induction front with
  | nil => rfl
  | cons token front induction => exact congrArg (token :: ·) induction

theorem exists_finish {feed : Feed} (sound : feed.failure = none) :
    ∃ front last, feed = prepend front (.finish last) := by
  induction feed with
  | token current rest induction =>
    obtain ⟨front, last, rfl⟩ := induction sound
    exact ⟨current :: front, last, rfl⟩
  | finish last => exact ⟨[], last, rfl⟩
  | fault found => cases sound

theorem failure_prepend_finish (front : List Token) (last : Token) :
    (prepend front (.finish last)).failure = none := by
  induction front with
  | nil => rfl
  | cons token front induction => exact induction

end Feed

namespace Scanner

/-- All that the scanner will still yield. -/
def feed (scanner : Scanner) : Feed :=
  match taken : scanner.next with
  | (.error fault, _) => .fault fault
  | (.ok token, after) =>
    if unfinished : token.kind = .endOfFile then .finish token
    else
      have : after.rest.length < scanner.rest.length := next_shortens taken unfinished
      .token token after.feed
termination_by scanner.rest.length

/-- Reading `tokens`, none of them a fault, leads from one scanner to another. -/
inductive Yields : Scanner → List Token → Scanner → Prop where
  | done (scanner : Scanner) : Yields scanner [] scanner
  | more {scanner middle last : Scanner} {token : Token} {tokens : List Token}
      (taken : scanner.next = (.ok token, middle)) (later : Yields middle tokens last) :
      Yields scanner (token :: tokens) last

variable {scanner after : Scanner} {token : Token} {fault : Fault}

theorem feed_of_fault (taken : scanner.next = (.error fault, after)) :
    scanner.feed = .fault fault := by
  rw [feed]
  split
  · rename_i found
    rw [taken] at found
    cases found
    rfl
  · rename_i found
    rw [taken] at found
    cases found

theorem feed_of_token (taken : scanner.next = (.ok token, after))
    (unfinished : token.kind ≠ .endOfFile) : scanner.feed = .token token after.feed := by
  rw [feed]
  split
  · rename_i found
    rw [taken] at found
    cases found
  · rename_i found
    rw [taken] at found
    cases found
    rw [dif_neg unfinished]

theorem feed_of_finish (taken : scanner.next = (.ok token, after))
    (finished : token.kind = .endOfFile) : scanner.feed = .finish token := by
  rw [feed]
  split
  · rename_i found
    rw [taken] at found
    cases found
  · rename_i found
    rw [taken] at found
    cases found
    rw [dif_pos finished]

theorem Yields.feed_eq {first last : Scanner} {tokens : List Token}
    (yields : Yields first tokens last) (unfinished : ∀ token ∈ tokens, token.kind ≠ .endOfFile) :
    first.feed = Feed.prepend tokens last.feed := by
  induction yields with
  | done scanner => rfl
  | more taken later induction =>
    rw [feed_of_token taken (unfinished _ (by simp))]
    rw [induction (fun token member => unfinished token (by simp [member]))]
    rfl

theorem yields_of_feed_eq {first : Scanner} {tokens : List Token} {tail : Feed}
    (same : first.feed = Feed.prepend tokens tail) :
    ∃ last, Yields first tokens last ∧ last.feed = tail ∧
      ∀ token ∈ tokens, token.kind ≠ .endOfFile := by
  induction tokens generalizing first with
  | nil => exact ⟨first, .done first, same, by simp⟩
  | cons token tokens induction =>
    cases taken : first.next with
    | mk outcome after =>
      cases outcome with
      | error fault => simp [feed_of_fault taken] at same
      | ok found =>
        by_cases finished : found.kind = .endOfFile
        · simp [feed_of_finish taken finished] at same
        · rw [feed_of_token taken finished, Feed.prepend_cons, Feed.token.injEq] at same
          obtain ⟨rfl, rest⟩ := same
          obtain ⟨last, later, tailSame, others⟩ := induction rest
          refine ⟨last, .more taken later, tailSame, ?_⟩
          intro other member
          rcases List.mem_cons.mp member with rfl | member
          · exact finished
          · exact others other member

theorem Yields.append {first middle last : Scanner} {left right : List Token}
    (before : Yields first left middle) (behind : Yields middle right last) :
    Yields first (left ++ right) last := by
  induction before with
  | done scanner => exact behind
  | more taken later induction => exact .more taken (induction behind)

theorem yields_append_iff {first last : Scanner} {left right : List Token} :
    Yields first (left ++ right) last ↔
      ∃ middle, Yields first left middle ∧ Yields middle right last := by
  constructor
  · intro yields
    induction left generalizing first with
    | nil => exact ⟨first, .done first, yields⟩
    | cons token left induction =>
      cases yields with
      | more taken later =>
        obtain ⟨middle, before, behind⟩ := induction later
        exact ⟨middle, .more taken before, behind⟩
  · rintro ⟨middle, before, behind⟩
    exact before.append behind

theorem length_feed_le (scanner : Scanner) : scanner.feed.length ≤ scanner.rest.length := by
  cases taken : scanner.next with
  | mk outcome after =>
    cases outcome with
    | error fault => simp [feed_of_fault taken, Feed.length]
    | ok token =>
      by_cases finished : token.kind = .endOfFile
      · simp [feed_of_finish taken finished, Feed.length]
      · have shorter := next_shortens taken finished
        have later := length_feed_le after
        rw [feed_of_token taken finished, Feed.length]
        omega
termination_by scanner.rest.length

end Scanner

def Cursor.feed (cursor : Cursor) : Feed :=
  if cursor.current.kind = .endOfFile then .finish cursor.current
  else .token cursor.current cursor.scanner.feed

theorem Cursor.feed_of_next {source : List Char} {place : Place} {after : Scanner} {token : Token}
    (taken : (Scanner.resume source place).next = (.ok token, after))
    (history : List (Place × Token)) :
    (Scanner.resume source place).feed = (Cursor.mk source after.place token history).feed := by
  rw [Cursor.feed, scanner_of_next taken]
  by_cases finished : token.kind = .endOfFile
  · rw [Scanner.feed_of_finish taken finished]
    exact (if_pos finished).symm
  · rw [Scanner.feed_of_token taken finished]
    exact (if_neg finished).symm

end WhileLang
