import WhileLang.Proofs.Tokenisation

/-!
# Reading is local

What a scanner answers depends on the characters ahead of it and on nothing else. A scanner that is
put at any place of a source, also at one that lies beyond its end or whose line and column are made
up, reads as one that starts afresh on the characters from there on. Only the places differ, and
they do so by a fixed rule (`Place.shifted`): lines are counted on from the line of the place, and
columns from its column until the first line feed is passed. Both are counted in words, also where
they start over behind the largest one.
-/

namespace WhileLang

set_option autoImplicit false

namespace Place

/-- Where a place that was counted in a text of its own is if the text stands at `origin`. -/
def shifted (origin place : Place) : Place :=
  if place.line = 1 then
    ⟨origin.offset + place.offset, origin.line, origin.column + place.column - 1⟩
  else
    ⟨origin.offset + place.offset, origin.line + place.line - 1, place.column⟩

theorem shifted_start (origin : Place) : origin.shifted start = origin := by
  simp [shifted, start]

theorem shifted_at_zero (origin place : Place) :
    origin.shifted ⟨0, place.line, place.column⟩ =
      ⟨origin.offset, (origin.shifted place).line, (origin.shifted place).column⟩ := by
  unfold shifted
  dsimp only
  split
  · rfl
  · rfl

theorem after_shifted (origin : Place) {place : Place} (counted : place.line ≠ 0) (char : Char) :
    (origin.shifted place).after char = origin.shifted (place.after char) := by
  by_cases feed : char = '\n'
  · -- A line feed ends the first line, and from there on the columns are those of the text.
    have later : place.line + 1 ≠ 1 := by
      intro first
      apply counted
      rw [← UInt64.add_sub_cancel place.line 1, first]
      rfl
    by_cases first : place.line = 1
    · simp only [after, shifted, if_pos feed, if_pos first, if_neg later, Place.mk.injEq, and_true]
      grind
    · simp only [after, shifted, if_pos feed, if_neg first, if_neg later, Place.mk.injEq, and_true]
      grind
  · by_cases first : place.line = 1
    · simp only [after, shifted, if_neg feed, if_pos first, Place.mk.injEq, true_and]
      grind
    · simp only [after, shifted, if_neg feed, if_neg first, Place.mk.injEq, and_true]
      omega

/-- The line of a text that a word can count the characters of never starts over. -/
theorem line_after_all_ne_zero {text : List Char} (short : text.length + 1 < 2 ^ 64) :
    (start.afterAll text).line ≠ 0 := by
  have bound : text.count '\n' ≤ text.length := List.count_le_length
  rw [after_all_start]
  intro restarted
  have counted : lineBehind text % 2 ^ 64 = 0 := by
    rw [← UInt64.toNat_ofNat']
    exact congrArg UInt64.toNat restarted
  unfold lineBehind at counted
  omega

theorem after_all_shifted (origin : Place) {text : List Char} (short : text.length < 2 ^ 64) :
    origin.afterAll text = origin.shifted (start.afterAll text) := by
  induction text using List.reverseRecOn with
  | nil => exact (shifted_start origin).symm
  | append_singleton text char induction =>
    rw [List.length_append, List.length_singleton] at short
    rw [after_all_append, after_all_append, induction (by omega)]
    exact after_shifted origin (line_after_all_ne_zero short) char

end Place

def Token.shifted (origin : Place) (token : Token) : Token :=
  let place := origin.shifted ⟨0, token.line, token.column⟩
  { token with line := place.line, column := place.column }

def Fault.shifted (origin : Place) (fault : Fault) : Fault :=
  let place := origin.shifted ⟨0, fault.line, fault.column⟩
  { fault with line := place.line, column := place.column }

theorem Token.shifted_at (origin place : Place) (kind : TokenKind) (text : Option String) :
    Token.shifted origin ⟨kind, text, place.line, place.column⟩ =
      ⟨kind, text, (origin.shifted place).line, (origin.shifted place).column⟩ := by
  rw [Token.shifted, Place.shifted_at_zero]

theorem Fault.shifted_at (origin place : Place) (cause : Cause) :
    Fault.shifted origin ⟨cause, place.line, place.column⟩ =
      ⟨cause, (origin.shifted place).line, (origin.shifted place).column⟩ := by
  rw [Fault.shifted, Place.shifted_at_zero]

namespace Scanner

/-- What a scanner answered, and the scanner behind it, with all places shifted. -/
def shiftedReading (origin : Place) : Except Fault Token × Scanner → Except Fault Token × Scanner
  | (.ok token, after) => (.ok (token.shifted origin), ⟨after.rest, origin.shifted after.place⟩)
  | (.error fault, after) =>
    (.error (fault.shifted origin), ⟨after.rest, origin.shifted after.place⟩)

theorem next_shifted (origin : Place) {rest : List Char} (short : rest.length < 2 ^ 64) :
    (Scanner.mk rest origin).next = shiftedReading origin (Scanner.mk rest Place.start).next := by
  have passed : ∀ front behind : List Char, rest = front ++ behind →
      origin.afterAll front = origin.shifted (Place.start.afterAll front) := by
    intro front behind split
    rw [split, List.length_append] at short
    exact Place.after_all_shifted origin (by omega)
  rcases front_cases rest with
    blank | ⟨gap, symbol, behind, blank, single, apart, rfl⟩ |
      ⟨gap, kind, text, behind, blank, takes, rfl⟩
  · rw [next_of_blanks blank, next_of_blanks blank, passed rest [] (by simp), shiftedReading,
      Token.shifted_at]
  · rw [next_of_lone blank single apart, next_of_lone blank single apart, ← Place.after_all_append,
      ← Place.after_all_append, passed gap _ rfl, passed (gap ++ [symbol]) behind (by simp),
      shiftedReading, Fault.shifted_at]
  · rw [next_of_takes blank takes, next_of_takes blank takes, ← Place.after_all_append,
      ← Place.after_all_append, passed gap _ rfl, passed (gap ++ text) behind (by simp),
      shiftedReading, Token.shifted_at]

/-- Put at any place of a source, a scanner reads what a fresh one reads on the characters from
there on, in as many characters, with the places in its answer and its own place shifted. At the end
of the source and beyond it stays where it is. No text in memory is too long for a word to count its
characters; in one that were, the first line would come again. -/
theorem reading_local (source : String) (short : source.length < 2 ^ 64) (place : Place) :
    (resume source.toList place).next =
        shiftedReading place (ofString (String.ofList (source.toList.drop place.offset))).next ∧
      (source.length ≤ place.offset →
        (resume source.toList place).next =
          (.ok ⟨.endOfFile, none, place.line, place.column⟩, resume source.toList place)) := by
  have shorter : (source.toList.drop place.offset).length < 2 ^ 64 := by
    rw [List.length_drop, String.length_toList]
    omega
  constructor
  · rw [ofString, String.toList_ofList]
    exact next_shifted place shorter
  · intro past
    have nothing : source.toList.drop place.offset = [] := List.drop_eq_nil_of_le past
    rw [resume, nothing]
    exact next_of_blanks (by simp [Blank]) place

/-- Far behind the end of a source, with a column that no scanner counts to. -/
theorem reading_local_beyond :
    "a\n".length < 2 ^ 64 ∧ "a\n".length ≤ 9 ∧
      (resume "a\n".toList ⟨9, 4, 0⟩).next =
        (.ok ⟨.endOfFile, none, 4, 0⟩, resume "a\n".toList ⟨9, 4, 0⟩) :=
  ⟨by decide, by decide, (reading_local "a\n" (by decide) ⟨9, 4, 0⟩).2 (by decide)⟩

-- The line feed is passed before the fault, so its column is that of the text and not shifted.
example : (resume "a\n &b".toList ⟨1, 7, 3⟩).next =
    (.error ⟨.unknownOperator '&', 8, 2⟩, ⟨['b'], ⟨4, 8, 3⟩⟩) := by
  decide

-- Behind the largest column the count starts over.
example : (resume " x".toList ⟨0, 1, 18446744073709551615⟩).next =
    (.ok ⟨.identifier, some "x", 1, 0⟩, ⟨[], ⟨2, 1, 1⟩⟩) := by
  decide

end Scanner

end WhileLang
