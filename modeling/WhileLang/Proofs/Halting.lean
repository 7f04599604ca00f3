import WhileLang.Proofs.Agreement
import WhileLang.Proofs.CursorIndex

/-!
# Parsing halts

A rule that succeeds has passed a token, so fewer are left with every round of a list of statements.
Between two tokens the rules go down the levels of the grammar, also where a step back has just
undone a step forward. A budget that covers both measures is never spent, and no larger one changes
the outcome.
-/

namespace WhileLang

set_option autoImplicit false

theorem Cursor.Passes.later_index {cursor last : Cursor} {count index : Nat} {source : String}
    (passes : cursor.Passes count last) (here : At source index cursor) :
    At source (index + count) last ∧
      ∀ passed, index ≤ passed → passed < index + count →
        ∃ token after, (Scanner.ofString source).reading passed = (.ok token, after) ∧
          token.kind ≠ .endOfFile := by
  induction passes generalizing index with
  | none cursor =>
    refine ⟨here, ?_⟩
    intro passed lower upper
    omega
  | @more cursor moved last count unfinished made later induction =>
    obtain ⟨token, after, taken, rfl⟩ := advance_eq_ok made
    obtain ⟨there, others⟩ := induction (.later here taken)
    have sum : index + 1 + count = index + (count + 1) := by omega
    rw [sum] at there others
    refine ⟨there, ?_⟩
    intro passed lower upper
    by_cases same : passed = index
    · subst same
      exact ⟨cursor.current, cursor.scanner, here.stands, unfinished⟩
    · exact others passed (by omega) upper

/-- The recursion goes no deeper than this: a budget of as much is not spent, and with more the
action does the same. -/
structure HaltsWithin {α : Type} (action : Nat → Parser α) (depth : Nat) (reader : Reader) :
    Prop where
  unspent : ∀ fault last, action depth reader = .error fault last → fault.cause ≠ .budgetSpent
  settled : ∀ budget, depth ≤ budget → action budget reader = action depth reader

theorem HaltsWithin.of_tracks {α : Type} {action : Nat → Parser α} {least depth height : Nat}
    {reader : Reader} {reading : Except Refusal (α × Feed)} (covers : Covers height depth reader)
    (tracks : ∀ budget, depth ≤ budget →
      Tracks least (Covers height depth reader) (action depth) (action budget) reading reader) :
    HaltsWithin action depth reader where
  unspent := (tracks depth (Nat.le_refl depth)).unspent covers
  settled budget larger := (tracks budget larger).settles covers

theorem program_halts {depth : Nat} {reader : Reader} (covers : Covers 9 depth reader) :
    HaltsWithin Parser.program depth reader :=
  .of_tracks covers fun _ larger => .wrapped ((rules larger).statements reader) _

theorem Rule.halts (rule : Rule) (reader : Reader) :
    HaltsWithin rule.parser (16 * reader.feed.length + rule.height) reader :=
  .of_tracks (Nat.le_refl _) fun _ larger => (rules larger).rule rule reader

theorem parse_unspent {source : String} {fault : Fault} (failed : parse source = .error fault) :
    fault.cause ≠ .budgetSpent := by
  unfold parse Parsing.ofString at failed
  cases started : Cursor.ofString source with
  | error found =>
    rw [started] at failed
    cases failed
    unfold Cursor.ofString Cursor.ofPlace at started
    split at started
    · cases started
    · rename_i taken
      cases started
      exact Scanner.cause_of_next taken
  | ok cursor =>
    have halts := program_halts (cursor.budget_covers [])
    rw [started] at failed
    simp only [Parsing.ofCursor] at failed
    cases run : Parser.program (Parser.budgetFor cursor.scanner.rest.length) ⟨cursor, []⟩ with
    | ok node last =>
      rw [run] at failed
      cases failed
    | error found last =>
      rw [run] at failed
      cases failed
      exact halts.unspent _ _ run

/-- Parsing halts on every source, with a tree or a fault of that source. From any token of it, a
list of statements and every rule go down no deeper than the tokens left and the height of the rule
allow, whatever the budget; and a rule that succeeds has come to a later token without passing the
end of the file. -/
theorem parse_halts (source : String) :
    (∀ fault, parse source = .error fault → fault.cause ≠ .budgetSpent) ∧
      (∀ cursor, Cursor.ofString source = .ok cursor →
        HaltsWithin Parser.program (Parser.budgetFor cursor.scanner.rest.length) ⟨cursor, []⟩) ∧
      ∀ index cursor taken, Cursor.At source index cursor →
        HaltsWithin Parser.program (16 * cursor.feed.length + 9) ⟨cursor, taken⟩ ∧
        ∀ rule : Rule,
          HaltsWithin rule.parser (16 * cursor.feed.length + rule.height) ⟨cursor, taken⟩ ∧
          ∀ budget node last, rule.parser budget ⟨cursor, taken⟩ = .ok node last →
            ∃ later, index < later ∧ Cursor.At source later last.cursor ∧
              ∀ passed, index ≤ passed → passed < later →
                ∃ token after, (Scanner.ofString source).reading passed = (.ok token, after) ∧
                  token.kind ≠ .endOfFile := by
  refine ⟨fun _ => parse_unspent, fun cursor _ => program_halts (cursor.budget_covers []), ?_⟩
  intro index cursor taken here
  refine ⟨program_halts (Nat.le_refl _), fun rule => ⟨rule.halts ⟨cursor, taken⟩, ?_⟩⟩
  intro budget node last run
  have tracks := (rules (Nat.le_refl budget)).rule rule ⟨cursor, taken⟩
  obtain ⟨count, positive, passes⟩ := tracks.moves node last run
  obtain ⟨there, others⟩ := passes.later_index here
  exact ⟨index + count, by omega, there, others⟩

/-- A source cut off behind a parenthesis, and the name in it, which is read, passed, stepped back
to and read again. -/
theorem parse_halts_truncated :
    parse "(x" = .error ⟨.missingOperator ")" ⟨.endOfFile, none, 1, 3⟩, 1, 3⟩ ∧
      Cause.missingOperator ")" ⟨.endOfFile, none, 1, 3⟩ ≠ .budgetSpent ∧
      Rule.expression.parser 7 ⟨⟨"(x".toList, ⟨2, 1, 3⟩, ⟨.identifier, some "x", 1, 2⟩,
          [(⟨1, 1, 2⟩, ⟨.operator, some "(", 1, 1⟩)]⟩, []⟩ =
        .ok (.reference "x") ⟨⟨"(x".toList, ⟨2, 1, 3⟩, ⟨.endOfFile, none, 1, 3⟩,
          [(⟨2, 1, 3⟩, ⟨.identifier, some "x", 1, 2⟩), (⟨1, 1, 2⟩, ⟨.operator, some "(", 1, 1⟩)]⟩,
          [⟨.endOfFile, none, 1, 3⟩, ⟨.endOfFile, none, 1, 3⟩]⟩ ∧
      ∃ later, 1 < later ∧ Cursor.At "(x" later
        ⟨"(x".toList, ⟨2, 1, 3⟩, ⟨.endOfFile, none, 1, 3⟩,
          [(⟨2, 1, 3⟩, ⟨.identifier, some "x", 1, 2⟩),
            (⟨1, 1, 2⟩, ⟨.operator, some "(", 1, 1⟩)]⟩ := by
  have failed : parse "(x" = .error ⟨.missingOperator ")" ⟨.endOfFile, none, 1, 3⟩, 1, 3⟩ := by cbv
  have first :
      (Scanner.ofString "(x").next = (.ok ⟨.operator, some "(", 1, 1⟩, ⟨['x'], ⟨1, 1, 2⟩⟩) := rfl
  have second : (Scanner.mk ['x'] ⟨1, 1, 2⟩).next =
      (.ok ⟨.identifier, some "x", 1, 2⟩, ⟨[], ⟨2, 1, 3⟩⟩) := rfl
  have here : Cursor.At "(x" 1 ⟨"(x".toList, ⟨2, 1, 3⟩, ⟨.identifier, some "x", 1, 2⟩,
      [(⟨1, 1, 2⟩, ⟨.operator, some "(", 1, 1⟩)]⟩ :=
    .later (.first first) second
  obtain ⟨unspent, _, rules⟩ := parse_halts "(x"
  obtain ⟨_, moves⟩ := (rules 1 _ [] here).2 .expression
  have run : Rule.expression.parser 7 ⟨⟨"(x".toList, ⟨2, 1, 3⟩, ⟨.identifier, some "x", 1, 2⟩,
          [(⟨1, 1, 2⟩, ⟨.operator, some "(", 1, 1⟩)]⟩, []⟩ =
        .ok (.reference "x") ⟨⟨"(x".toList, ⟨2, 1, 3⟩, ⟨.endOfFile, none, 1, 3⟩,
          [(⟨2, 1, 3⟩, ⟨.identifier, some "x", 1, 2⟩), (⟨1, 1, 2⟩, ⟨.operator, some "(", 1, 1⟩)]⟩,
          [⟨.endOfFile, none, 1, 3⟩, ⟨.endOfFile, none, 1, 3⟩]⟩ := rfl
  obtain ⟨later, ahead, there, _⟩ := moves 7 _ _ run
  exact ⟨failed, unspent _ failed, run, later, ahead, there⟩

end WhileLang
