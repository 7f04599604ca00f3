import WhileLang.Proofs.Agreement
import WhileLang.Proofs.Completeness
import WhileLang.Proofs.CursorIndex
import WhileLang.Proofs.Viability

/-!
# Looking ahead without stepping back

The parser decides whether a name is assigned to by reading on and stepping back. The descent over a
feed looks at the token behind the name instead and never steps back. Both come to the same tree or
the same fault, from whatever token of the source they start and however the cursor got there. What
lies on the history of the cursor is not even looked at: every rule does the same with anything else
below, and leaves it there.
-/

namespace WhileLang

set_option autoImplicit false

namespace Feed

/-- Without the first result. The end of the file and a fault are never passed. -/
def rest : Feed → Feed
  | token _ later => later
  | finish last => finish last
  | fault found => fault found

def drop (feed : Feed) : Nat → Feed
  | 0 => feed
  | index + 1 => (feed.drop index).rest

end Feed

theorem Cursor.At.feed {source : String} {index : Nat} {cursor : Cursor}
    (here : At source index cursor) :
    cursor.feed = (Scanner.ofString source).feed.drop index := by
  induction here with
  | first taken =>
    rw [← Scanner.resume_start] at taken ⊢
    exact (Cursor.feed_of_next taken []).symm
  | @later index cursor after token before taken induction =>
    rw [Feed.drop, ← induction, ← Cursor.feed_of_next taken _]
    change cursor.scanner.feed = cursor.feed.rest
    by_cases finished : cursor.current.kind = .endOfFile
    · obtain ⟨earlier, call⟩ := (Scanner.ofString source).exists_next index
      have again := Scanner.next_of_finish (call.symm.trans before.stands) finished
      rw [Scanner.feed_of_finish again finished, Cursor.feed, if_pos finished]
      rfl
    · rw [Cursor.feed, if_neg finished]
      rfl

def Descent.program (feed : Feed) : Except Fault Node :=
  match statements feed with
  | .ok (nodes, _) => .ok (.ofStatements nodes)
  | .error refusal => .error refusal.fault

theorem Descent.statements_ne_late (feed : Feed) (nodes : List Node) (fault : Fault) :
    statements feed ≠ .ok (nodes, .fault fault) := by
  intro read
  obtain ⟨_, _, _, stops⟩ := derives_of_statements read
  exact stops.detaches.sound fault.cause rfl

theorem outcome_eq_program (cursor : Cursor) :
    (Parsing.ofCursor cursor).outcome = Descent.program cursor.feed := by
  have agrees := cursor.agrees
  unfold Descent.program
  generalize read : Parser.statements _ _ = outcome at agrees
  generalize reached : Descent.statements cursor.feed = reading at agrees
  cases agrees with
  | ok nodes last => exact outcome_of_ok read
  | late nodes fault last => exact absurd reached (Descent.statements_ne_late _ nodes fault)
  | refused refusal last => exact outcome_of_error read

theorem parse_eq_program (source : String) :
    parse source = Descent.program (Scanner.ofString source).feed := by
  unfold Descent.program
  rcases parse_cases source with
    ⟨nodes, rest, read, _, parsed⟩ | ⟨nodes, fault, late, _⟩ | ⟨refusal, refused, parsed⟩
  · rw [read, parsed]
  · exact absurd late (Descent.statements_ne_late _ nodes fault)
  · rw [refused, parsed]

theorem program_over (budget : Nat) (reader : Reader) (history : List (Place × Token)) :
    Parser.program budget (reader.over history) =
      outcomeOver history (Parser.program budget reader) :=
  (Tracks.wrapped ((rules (Nat.le_refl budget)).statements reader) Node.ofStatements).framed history

theorem parsing_over (source : List Char) (place : Place) (token : Token)
    (history : List (Place × Token)) :
    Parsing.ofCursor ⟨source, place, token, history⟩ =
      Parsing.ofCursor ⟨source, place, token, []⟩ := by
  have below := program_over (Parser.budgetFor (source.drop place.offset).length)
    ⟨⟨source, place, token, []⟩, []⟩ history
  change Parser.program _ ⟨⟨source, place, token, history⟩, []⟩ = _ at below
  simp only [Parsing.ofCursor, Cursor.scanner, Scanner.resume, below]
  cases Parser.program _ _ <;> rfl

/-- A parser built on a cursor reads what the descent reads that never steps back, from the token
that the cursor stands on; and no rule looks at what lies on the history below it or takes it away,
in particular no rule that steps back. -/
theorem build_eq_descent (source : String) (cursor : Cursor)
    (started : Cursor.ofString source = .ok cursor) (moves : List Cursor.Move) :
    (Parsing.ofCursor (cursor.behind moves)).outcome =
        Descent.program ((Scanner.ofString source).feed.drop
          (cursor.made .advance moves - cursor.made .rewind moves)) ∧
      (∀ characters place token history,
        Parsing.ofCursor ⟨characters, place, token, history⟩ =
          Parsing.ofCursor ⟨characters, place, token, []⟩) ∧
      ∀ budget reader history,
        Parser.expression budget (reader.over history) =
          outcomeOver history (Parser.expression budget reader) := by
  refine ⟨?_, ?_, ?_⟩
  · obtain ⟨last, here, counted⟩ := (Cursor.At.of_string started).walk moves
    have number : last = cursor.made .advance moves - cursor.made .rewind moves := by omega
    rw [outcome_eq_program, here.feed, number]
  · exact parsing_over
  · intro budget reader
    exact ((rules (Nat.le_refl budget)).rule .expression reader).framed

/-- On `y`, after a step back to the `=`. What is looked at behind the name is a lone `&`. -/
theorem build_eq_descent_rewound :
    Cursor.ofString "x = y & 1;" =
        .ok ⟨"x = y & 1;".toList, ⟨1, 1, 2⟩, ⟨.identifier, some "x", 1, 1⟩, []⟩ ∧
      (Parsing.ofCursor (Cursor.behind
          ⟨"x = y & 1;".toList, ⟨1, 1, 2⟩, ⟨.identifier, some "x", 1, 1⟩, []⟩
          [.advance, .advance, .rewind, .advance])).outcome =
        Descent.program ((Scanner.ofString "x = y & 1;").feed.drop 2) := by
  have started : Cursor.ofString "x = y & 1;" =
      .ok ⟨"x = y & 1;".toList, ⟨1, 1, 2⟩, ⟨.identifier, some "x", 1, 1⟩, []⟩ := by
    rfl
  exact ⟨started, (build_eq_descent _ _ started [.advance, .advance, .rewind, .advance]).1⟩

end WhileLang
