import WhileLang.Proofs.Tokenisation

/-!
# A cursor is an index

Calling `next` again and again numbers the tokens of a source, and the end of the file has every
number from the first one on. A cursor that was moved forward and back in any order is nothing but
such a number: it is the cursor that as many plain steps forward lead to, whatever else was tried on
the way.
-/

namespace WhileLang

set_option autoImplicit false

namespace Scanner

/-- The answer of the call of `next` with this number, and the scanner behind it. -/
def reading (scanner : Scanner) : Nat → Except Fault Token × Scanner
  | 0 => scanner.next
  | index + 1 => (scanner.reading index).2.next

theorem blank_of_finish {scanner after : Scanner} {token : Token}
    (taken : scanner.next = (.ok token, after)) (finished : token.kind = .endOfFile) :
    Blank scanner.rest := by
  obtain ⟨rest, place⟩ := scanner
  rcases front_cases rest with
    blank | ⟨gap, symbol, behind, blank, single, apart, rfl⟩ |
      ⟨gap, kind, text, behind, blank, takes, rfl⟩
  · exact blank
  · rw [next_of_lone blank single apart] at taken
    cases taken
  · rw [next_of_takes blank takes] at taken
    cases taken
    exact absurd finished (Lexeme.kind_ne_end_of_file takes.lexeme)

theorem blank_of_feed_finish {scanner : Scanner} {last : Token}
    (feed : scanner.feed = .finish last) :
    Blank scanner.rest := by
  cases taken : scanner.next with
  | mk outcome after =>
    cases outcome with
    | error fault => simp [feed_of_fault taken] at feed
    | ok token =>
      by_cases finished : token.kind = .endOfFile
      · exact blank_of_finish taken finished
      · simp [feed_of_token taken finished] at feed

theorem next_of_finish {scanner after : Scanner} {token : Token}
    (taken : scanner.next = (.ok token, after)) (finished : token.kind = .endOfFile) :
    after.next = (.ok token, after) := by
  rw [next_of_blanks (blank_of_finish taken finished)] at taken
  cases taken
  exact next_of_blanks (by simp [Blank]) (scanner.place.afterAll scanner.rest)

theorem exists_next (scanner : Scanner) (index : Nat) :
    ∃ before : Scanner, scanner.reading index = before.next := by
  cases index with
  | zero => exact ⟨scanner, rfl⟩
  | succ index => exact ⟨(scanner.reading index).2, rfl⟩

theorem reading_of_finish {scanner after : Scanner} {token : Token} {index : Nat}
    (taken : scanner.reading index = (.ok token, after)) (finished : token.kind = .endOfFile)
    {later : Nat} (behind : index ≤ later) : scanner.reading later = (.ok token, after) := by
  obtain ⟨before, call⟩ := scanner.exists_next index
  induction later, behind using Nat.le_induction with
  | base => exact taken
  | succ later _ induction =>
    rw [reading, induction]
    exact next_of_finish (call.symm.trans taken) finished

end Scanner

namespace Cursor

def succeeds : Except Fault Bool → Bool
  | .ok answer => answer
  | .error _ => false

/-- What a move with this answer adds to the number of moves of a kind that were made. -/
def gain (kind move : Move) (answer : Except Fault Bool) : Nat :=
  if move = kind && succeeds answer then 1 else 0

def made (cursor : Cursor) (kind : Move) (moves : List Move) : Nat :=
  (moves.zip (cursor.walk moves)).countP fun step => step.1 = kind && succeeds step.2.1

def behind (cursor : Cursor) (moves : List Move) : Cursor :=
  ((cursor.walk moves).map Prod.snd).getLastD cursor

theorem made_cons (cursor : Cursor) (kind first : Move) (moves : List Move) :
    cursor.made kind (first :: moves) =
      (cursor.move first).2.made kind moves + gain kind first (cursor.move first).1 :=
  List.countP_cons

theorem behind_cons (cursor : Cursor) (first : Move) (moves : List Move) :
    cursor.behind (first :: moves) = (cursor.move first).2.behind moves :=
  List.getLastD_cons

/-- The cursor that comes of this many steps forward and of nothing else. -/
inductive At (source : String) : Nat → Cursor → Prop where
  | first {after : Scanner} {token : Token}
      (taken : (Scanner.ofString source).next = (.ok token, after)) :
      At source 0 ⟨source.toList, after.place, token, []⟩
  | later {index : Nat} {cursor : Cursor} {after : Scanner} {token : Token}
      (before : At source index cursor) (taken : cursor.scanner.next = (.ok token, after)) :
      At source (index + 1)
        ⟨cursor.source, after.place, token, (cursor.place, cursor.current) :: cursor.history⟩

namespace At

variable {source : String} {index : Nat} {cursor : Cursor}

theorem stands (here : At source index cursor) :
    (Scanner.ofString source).reading index = (.ok cursor.current, cursor.scanner) := by
  induction here with
  | first taken =>
    rw [← Scanner.resume_start] at taken ⊢
    rw [scanner_of_next taken]
    exact taken
  | later before taken induction =>
    rw [Scanner.reading, induction, scanner_of_next taken]
    exact taken

theorem depth (here : At source index cursor) : cursor.history.length = index := by
  induction here with
  | first taken => rfl
  | later before taken induction => rw [List.length_cons, induction]

theorem of_string (started : Cursor.ofString source = .ok cursor) : At source 0 cursor := by
  unfold Cursor.ofString ofPlace at started
  cases taken : (Scanner.resume source.toList Place.start).next with
  | mk outcome after =>
    rw [taken] at started
    cases outcome with
    | error fault => cases started
    | ok token =>
      cases started
      exact .first taken

theorem move (here : At source index cursor) (move : Move) :
    ∃ next, At source next (cursor.move move).2 ∧
      index + gain .advance move (cursor.move move).1 =
        next + gain .rewind move (cursor.move move).1 := by
  cases move with
  | advance =>
    unfold Cursor.move
    cases taken : cursor.scanner.next with
    | mk outcome after =>
      cases outcome with
      | error fault =>
        rw [advance_of_error taken]
        exact ⟨index, here, rfl⟩
      | ok token =>
        rw [advance_of_ok taken]
        exact ⟨index + 1, .later here taken, rfl⟩
  | rewind =>
    -- The top of the history is what the last step forward has left, so the cursor before it comes
    -- back.
    cases here with
    | first taken => exact ⟨0, .first taken, rfl⟩
    | @later index before after token earlier taken => exact ⟨index, earlier, rfl⟩

theorem walk (here : At source index cursor) (moves : List Move) :
    ∃ last, At source last (cursor.behind moves) ∧
      index + cursor.made .advance moves = last + cursor.made .rewind moves := by
  induction moves generalizing index cursor with
  | nil => exact ⟨index, here, rfl⟩
  | cons first moves induction =>
    obtain ⟨next, there, step⟩ := here.move first
    obtain ⟨last, ends, counted⟩ := induction there
    refine ⟨last, ?_, ?_⟩
    · rw [behind_cons]
      exact ends
    · rw [made_cons, made_cons]
      omega

end At

/-- The cursor stands at this number of the readings and answers every move as a number would. -/
structure Refines (reading : Nat → Except Fault Token × Scanner) (index : Nat) (cursor : Cursor) :
    Prop where
  stands : reading index = (.ok cursor.current, cursor.scanner)
  depth : cursor.history.length = index
  bottom : (cursor.move .rewind).1 = .ok false ↔ index = 0
  rests : (cursor.move .rewind).1 = .ok false → (cursor.move .rewind).2 = cursor
  fails : ∀ fault, (cursor.move .advance).1 = .error fault ↔ (reading (index + 1)).1 = .error fault
  stays : ∀ fault, (cursor.move .advance).1 = .error fault →
    (cursor.move .advance).2 = cursor ∧
      (cursor.move .advance).2.move .advance = cursor.move .advance

theorem move_advance_error_iff (cursor : Cursor) (fault : Fault) :
    (cursor.move .advance).1 = .error fault ↔ cursor.scanner.next.1 = .error fault := by
  unfold move advance
  cases taken : cursor.scanner.next with
  | mk outcome after => cases outcome <;> simp [Except.map]

theorem move_advance_of_error {cursor : Cursor} {fault : Fault}
    (failed : (cursor.move .advance).1 = .error fault) : (cursor.move .advance).2 = cursor := by
  have stops := (move_advance_error_iff cursor fault).mp failed
  have taken : cursor.scanner.next = (.error fault, cursor.scanner.next.2) := by rw [← stops]
  rw [move, advance_of_error taken]

theorem move_rewind_false_iff (cursor : Cursor) :
    (cursor.move .rewind).1 = .ok false ↔ cursor.history = [] := by
  unfold move rewind
  cases cursor.history <;> simp

theorem move_rewind_of_false {cursor : Cursor} (failed : (cursor.move .rewind).1 = .ok false) :
    (cursor.move .rewind).2 = cursor := by
  rw [move, rewind, (move_rewind_false_iff cursor).mp failed]

theorem At.refines {source : String} {index : Nat} {cursor : Cursor}
    (here : At source index cursor) :
    cursor.Refines (Scanner.ofString source).reading index where
  stands := here.stands
  depth := here.depth
  bottom := by rw [move_rewind_false_iff, ← List.length_eq_zero_iff, here.depth]
  rests := move_rewind_of_false
  fails fault := by rw [move_advance_error_iff, Scanner.reading, here.stands]
  stays fault failed := by
    have same := move_advance_of_error failed
    exact ⟨same, by rw [same]⟩

end Cursor

/-- Moving a cursor forward and back in any order is counting. It stands on the token whose number
is the steps forward that were made less the steps back, its history has as many entries and its
scanner is the one behind that token; it cannot step back from the first token, nor forward onto a
fault, and stays as it was when it cannot. The end of the file keeps all numbers from its first one
on. -/
theorem walk_refines_index (source : String) (cursor : Cursor)
    (started : Cursor.ofString source = .ok cursor) (moves : List Cursor.Move) :
    cursor.made .rewind moves ≤ cursor.made .advance moves ∧
      (cursor.behind moves).Refines (Scanner.ofString source).reading
        (cursor.made .advance moves - cursor.made .rewind moves) ∧
      ∀ index token after, (Scanner.ofString source).reading index = (.ok token, after) →
        token.kind = .endOfFile → ∀ later, index ≤ later →
          (Scanner.ofString source).reading later = (.ok token, after) := by
  obtain ⟨last, here, counted⟩ := (Cursor.At.of_string started).walk moves
  have number : last = cursor.made .advance moves - cursor.made .rewind moves := by omega
  refine ⟨by omega, ?_, ?_⟩
  · rw [← number]
    exact here.refines
  · intro index token after taken finished later behind
    exact Scanner.reading_of_finish taken finished behind

/-- Of six moves, two steps forward and one step back are made. The others fail, at the lone `&`
behind the semicolon and at the first token. -/
theorem walk_refines_index_lone :
    Cursor.ofString "x; &" = .ok ⟨"x; &".toList, ⟨1, 1, 2⟩, ⟨.identifier, some "x", 1, 1⟩, []⟩ ∧
      (Cursor.behind ⟨"x; &".toList, ⟨1, 1, 2⟩, ⟨.identifier, some "x", 1, 1⟩, []⟩
        [.advance, .advance, .rewind, .rewind, .advance, .advance]).Refines
        (Scanner.ofString "x; &").reading 1 := by
  have started : Cursor.ofString "x; &" =
      .ok ⟨"x; &".toList, ⟨1, 1, 2⟩, ⟨.identifier, some "x", 1, 1⟩, []⟩ := rfl
  exact ⟨started, (walk_refines_index _ _ started
    [.advance, .advance, .rewind, .rewind, .advance, .advance]).2.1⟩

end WhileLang
