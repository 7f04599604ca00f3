import WhileLang.Scanner

/-!
# Cursor

A cursor stands on one token of a source. It moves forward by reading. What it keeps of the way is
where the scanner stood and the token it had, and it moves back by putting the scanner at such a
place again.
-/

namespace WhileLang

set_option autoImplicit false

structure Cursor where
  source : List Char
  /-- Where the scanner stands, which is behind the current token. -/
  place : Place
  current : Token
  /-- The places and tokens left behind so far, the latest first. -/
  history : List (Place × Token)
  deriving DecidableEq, Repr

namespace Cursor

def scanner (cursor : Cursor) : Scanner :=
  Scanner.resume cursor.source cursor.place

def ofPlace (source : List Char) (place : Place) : Except Fault Cursor :=
  match (Scanner.resume source place).next with
  | (.ok token, after) => .ok ⟨source, after.place, token, []⟩
  | (.error fault, _) => .error fault

def ofString (source : String) : Except Fault Cursor :=
  ofPlace source.toList Place.start

def restore (cursor : Cursor) (place : Place) : Cursor :=
  { cursor with place }

/-- Moves to the next token. A fault is reported with the scanner put back, which has passed it. -/
def advance (cursor : Cursor) : Except Fault Unit × Cursor :=
  let kept := cursor.place
  match cursor.scanner.next with
  | (.ok token, after) =>
    (.ok (), ⟨cursor.source, after.place, token, (kept, cursor.current) :: cursor.history⟩)
  | (.error fault, after) => (.error fault, { cursor with place := after.place }.restore kept)

def rewind (cursor : Cursor) : Bool × Cursor :=
  match cursor.history with
  | (kept, token) :: history => (true, { cursor.restore kept with current := token, history })
  | [] => (false, cursor)

inductive Move where
  | advance
  | rewind
  deriving DecidableEq, Repr

def move (cursor : Cursor) : Move → Except Fault Bool × Cursor
  | .advance =>
    let (outcome, moved) := cursor.advance
    (outcome.map fun _ => true, moved)
  | .rewind =>
    let (answer, moved) := cursor.rewind
    (.ok answer, moved)

/-- Makes the moves in order and gives, for each, its answer and the cursor behind it. -/
def walk (cursor : Cursor) : List Move → List (Except Fault Bool × Cursor)
  | [] => []
  | first :: moves =>
    let made := cursor.move first
    made :: made.2.walk moves

/-- The scanner that is left when a token has been read is what the place of it brings back. -/
theorem scanner_of_next {source : List Char} {place : Place} {token : Token} {after : Scanner}
    (taken : (Scanner.resume source place).next = (.ok token, after)) (current : Token)
    (history : List (Place × Token)) : (mk source after.place current history).scanner = after := by
  have stands : Scanner.resume source (Scanner.resume source place).next.2.place =
      (Scanner.resume source place).next.2 := Scanner.next_resumes rfl
  rw [taken] at stands
  exact stands

theorem advance_of_ok {cursor : Cursor} {token : Token} {after : Scanner}
    (taken : cursor.scanner.next = (.ok token, after)) :
    cursor.advance =
      (.ok (), ⟨cursor.source, after.place, token,
        (cursor.place, cursor.current) :: cursor.history⟩) := by
  rw [advance, taken]

/-- At a fault the cursor is as it was, its scanner included. -/
theorem advance_of_error {cursor : Cursor} {fault : Fault} {after : Scanner}
    (taken : cursor.scanner.next = (.error fault, after)) :
    cursor.advance = (.error fault, cursor) := by
  rw [advance, taken]
  rfl

theorem rewind_advance {cursor moved : Cursor} (made : cursor.advance = (.ok (), moved)) :
    moved.rewind = (true, cursor) := by
  unfold advance at made
  dsimp only at made
  split at made
  · cases made
    rfl
  · cases made

end Cursor

end WhileLang
