import WhileLang.Parser
import WhileLang.Proofs.Descent

/-!
# Tracking a reading

An action of the parser tracks a reading of the descent (`Tracks`) if, from the reader it is given,
it comes to the same end. Everything that is said of the rules of the parser later on is a field of
this one notion: that a rule makes headway when it succeeds, that a larger budget changes nothing
once a budget is enough, and that a rule neither looks at nor removes what lies on the history below
it. So each rule is walked through once.

Parser and descent differ in when a fault is met: the parser fails as it reads the faulty token, the
descent only when a rule looks at it. What comes behind a rule always looks, or hands the fault on
(`Descent.Keeps`).
-/

namespace WhileLang

set_option autoImplicit false

namespace Cursor

/-- Moving over this many tokens, none of them the end of the file, leads from one cursor to
another. -/
inductive Passes : Cursor → Nat → Cursor → Prop where
  | none (cursor : Cursor) : Passes cursor 0 cursor
  | more {cursor moved last : Cursor} {count : Nat} (unfinished : cursor.current.kind ≠ .endOfFile)
      (made : cursor.advance = (.ok (), moved)) (later : Passes moved count last) :
      Passes cursor (count + 1) last

theorem advance_eq_ok {cursor moved : Cursor} (made : cursor.advance = (.ok (), moved)) :
    ∃ token after, cursor.scanner.next = (.ok token, after) ∧
      moved = ⟨cursor.source, after.place, token,
        (cursor.place, cursor.current) :: cursor.history⟩ := by
  cases taken : cursor.scanner.next with
  | mk outcome after =>
    cases outcome with
    | error fault =>
      rw [advance_of_error taken] at made
      cases made
    | ok token =>
      rw [advance_of_ok taken] at made
      cases made
      exact ⟨token, after, rfl, rfl⟩

theorem feed_of_advance {cursor moved : Cursor} (made : cursor.advance = (.ok (), moved)) :
    moved.feed = cursor.scanner.feed := by
  obtain ⟨token, after, taken, rfl⟩ := advance_eq_ok made
  exact (feed_of_next taken _).symm

namespace Passes

variable {cursor middle last : Cursor} {first second count : Nat}

theorem trans (before : cursor.Passes first middle) (behind : middle.Passes second last) :
    cursor.Passes (first + second) last := by
  induction before with
  | none cursor =>
    rw [Nat.zero_add]
    exact behind
  | more unfinished made later induction =>
    rw [Nat.add_right_comm]
    exact .more unfinished made (induction behind)

theorem feed_length (passes : cursor.Passes count last) :
    cursor.feed.length = count + last.feed.length := by
  induction passes with
  | none cursor => rw [Nat.zero_add]
  | more unfinished made later induction =>
    rw [feed, if_neg unfinished, Feed.length, ← feed_of_advance made, induction]
    omega

end Passes

end Cursor

def Reader.feed (reader : Reader) : Feed :=
  reader.cursor.feed

def Reader.over (reader : Reader) (history : List (Place × Token)) : Reader :=
  ⟨{ reader.cursor with history := reader.cursor.history ++ history }, reader.taken⟩

namespace Reader

@[simp] theorem over_nil (reader : Reader) : reader.over [] = reader := by
  simp [Reader.over]

variable {reader : Reader}

theorem feed_of_unfinished (unfinished : reader.cursor.current.kind ≠ .endOfFile) :
    reader.feed = .token reader.cursor.current reader.cursor.scanner.feed := by
  rw [feed, Cursor.feed, if_neg unfinished]

theorem feed_of_finished (finished : reader.cursor.current.kind = .endOfFile) :
    reader.feed = .finish reader.cursor.current := by
  rw [feed, Cursor.feed, if_pos finished]

theorem feed_ne_fault (reader : Reader) (fault : Fault) : reader.feed ≠ .fault fault := by
  unfold feed Cursor.feed
  split <;> simp

theorem current_word {word : Word} (stands : reader.feed.sign = .word word) :
    reader.cursor.current.word = word := by
  unfold feed Cursor.feed at stands
  split at stands
  · cases stands
  · exact Sign.word.inj stands

def upcoming (reader : Reader) : Option Word :=
  if reader.cursor.current.kind = .endOfFile then none else some reader.cursor.current.word

end Reader

/-- The same outcome with a further history below the one that the reader ends with. -/
def outcomeOver {α : Type} (history : List (Place × Token)) :
    EStateM.Result Fault Reader α → EStateM.Result Fault Reader α
  | .ok value last => .ok value (last.over history)
  | .error fault last => .error fault (last.over history)

/-- An outcome of the parser and one of the descent say the same. -/
inductive Agrees {α : Type} : EStateM.Result Fault Reader α → Except Refusal (α × Feed) → Prop where
  | ok (value : α) (last : Reader) : Agrees (.ok value last) (.ok (value, last.feed))
  /-- The descent has not looked at the fault yet. -/
  | late (value : α) (fault : Fault) (last : Reader) :
      Agrees (.error fault last) (.ok (value, .fault fault))
  | refused (refusal : Refusal) (last : Reader) :
      Agrees (.error refusal.fault last) (.error refusal)

namespace Descent

def Looks {α : Type} (rule : Descent α) : Prop :=
  ∀ fault, ∃ refusal, rule (.fault fault) = .error refusal ∧ refusal.fault = fault

/-- The rule looks at a fault it stands at, or leaves it where it is. -/
def Keeps {α : Type} (rule : Descent α) : Prop :=
  Looks rule ∨ ∃ value, ∀ feed, rule feed = .ok (value, feed)

section Looks

variable {α β : Type}

theorem Looks.bind {rule : Descent α} (looks : Looks rule) (next : α → Descent β) :
    Looks (rule >>= next) := by
  intro fault
  obtain ⟨refusal, stops, same⟩ := looks fault
  refine ⟨refusal, ?_, same⟩
  change rule (.fault fault) >>= _ = _
  rw [stops]
  rfl

theorem Looks.keeps {rule : Descent α} (looks : Looks rule) : Keeps rule :=
  .inl looks

theorem keeps_pure (value : α) : Keeps (pure value : Descent α) :=
  .inr ⟨value, fun _ => rfl⟩

/-- A fault that the parser has met already comes out of a rule that keeps it. -/
theorem Keeps.agrees {rule : Descent α} (keeps : Keeps rule) (fault : Fault) (last : Reader) :
    Agrees (.error fault last) (rule (.fault fault)) := by
  rcases keeps with looks | ⟨value, stays⟩
  · obtain ⟨refusal, stops, same⟩ := looks fault
    rw [stops, ← same]
    exact .refused refusal last
  · rw [stays]
    exact .late value fault last

theorem looks_accept (select : Word → Option α) : Looks (accept select) :=
  fun fault => ⟨⟨.operand, .fault fault⟩, rfl, rfl⟩

theorem looks_look : Looks look :=
  fun fault => ⟨⟨.operand, .fault fault⟩, rfl, rfl⟩

theorem looks_target : Looks target :=
  fun fault => ⟨⟨.operand, .fault fault⟩, rfl, rfl⟩

theorem looks_pass (symbol : String) : Looks (pass symbol) := by
  rw [pass_eq]
  exact (looks_accept _).bind _

theorem looks_statements : Looks statements := by
  rw [statements_eq]
  exact looks_look.bind _

theorem looks_block : Looks block := by
  rw [block_eq]
  exact (looks_accept _).bind _

theorem looks_condition : Looks condition := by
  rw [condition_eq]
  exact (looks_pass _).bind _

theorem looks_expression : Looks expression := by
  rw [expression_eq]
  exact looks_target.bind _

theorem looks_unary : Looks unary := by
  rw [unary_eq]
  exact (looks_accept _).bind _

theorem looks_binary (level : Level) : Looks (binary level) := by
  induction rank : level.rank generalizing level with
  | zero =>
    cases level <;> cases rank
    rw [binary_eq]
    exact looks_unary.bind _
  | succ rank induction =>
    cases level <;> cases rank <;> rw [binary_eq]
    · exact (induction .comparison rfl).bind _
    · exact (induction .arithmetic rfl).bind _
    · exact (induction .term rfl).bind _

end Looks

end Descent

open Descent

section Steps

variable {α β : Type} {reader : Reader}

theorem current_bind (proceed : Token → Parser α) (reader : Reader) :
    (Parser.current >>= proceed) reader = proceed reader.cursor.current reader :=
  rfl

theorem operator_bind {ofSymbol? : String → Option α} {selected : Option α}
    (found : (if reader.cursor.current.kind = .operator
      then ofSymbol? (reader.cursor.current.text.getD "") else none) = selected)
    (proceed : Option α → Parser β) :
    (Parser.operator? ofSymbol? >>= proceed) reader = proceed selected reader := by
  rw [← found, Parser.operator?, bind_assoc, current_bind]
  split <;> rfl

theorem Token.unfinished_of_is {token : Token} {kind : TokenKind} {text : Option String}
    (stands : token.is kind text = true) (other : kind ≠ .endOfFile) : token.kind ≠ .endOfFile := by
  simp only [Token.is, Bool.and_eq_true, beq_iff_eq] at stands
  rw [stands.1]
  exact other

theorem Scanner.cause_of_next {scanner after : Scanner} {fault : Fault}
    (taken : scanner.next = (.error fault, after)) : fault.cause ≠ .budgetSpent := by
  unfold next at taken
  dsimp only at taken
  split at taken
  · cases taken
  · cases taken
    simp
  · cases taken

theorem advance_cases (reader : Reader) :
    (∃ fault, Parser.advance reader = .error fault reader ∧ fault.cause ≠ .budgetSpent ∧
      reader.cursor.scanner.feed = .fault fault) ∨
    ∃ moved, Parser.advance reader = .ok () moved ∧
      reader.cursor.advance = (.ok (), moved.cursor) := by
  unfold Parser.advance
  cases taken : reader.cursor.scanner.next with
  | mk outcome after =>
    cases outcome with
    | error fault =>
      rw [Cursor.advance_of_error taken]
      exact .inl ⟨fault, rfl, Scanner.cause_of_next taken, Scanner.feed_of_fault taken⟩
    | ok token =>
      rw [Cursor.advance_of_ok taken]
      exact .inr ⟨_, rfl, rfl⟩

theorem advance_over (reader : Reader) (history : List (Place × Token)) :
    Parser.advance (reader.over history) = outcomeOver history (Parser.advance reader) := by
  have same : (reader.over history).cursor.scanner.next = reader.cursor.scanner.next := rfl
  unfold Parser.advance Cursor.advance
  rw [same]
  cases reader.cursor.scanner.next with
  | mk outcome after => cases outcome <;> rfl

theorem advance_bind {proceed : Parser β} {moved : Reader}
    (run : Parser.advance reader = .ok () moved) :
    (Parser.advance >>= fun _ => proceed) reader = proceed moved := by
  change EStateM.bind Parser.advance _ reader = _
  rw [EStateM.bind, run]

theorem advance_bind_error {proceed : Parser β} {fault : Fault}
    (run : Parser.advance reader = .error fault reader) :
    (Parser.advance >>= fun _ => proceed) reader = .error fault reader := by
  change EStateM.bind Parser.advance _ reader = _
  rw [EStateM.bind, run]

/-- A step back behind a step forward is at the old token again, with one more token taken. -/
theorem rewind_bind {moved : Reader} (run : Parser.advance reader = .ok () moved)
    (next : Parser α) :
    (Parser.rewind >>= fun _ => next) moved = next ⟨reader.cursor, moved.taken⟩ := by
  rcases advance_cases reader with ⟨fault, failed, _⟩ | ⟨other, made, moves⟩
  · rw [failed] at run
    cases run
  · rw [made] at run
    cases run
    change next ⟨moved.cursor.rewind.2, moved.taken⟩ = _
    rw [Cursor.rewind_advance moves]

theorem bind_eq_ok {action : Parser α} {proceed : α → Parser β} {last : Reader} {result : β}
    (run : (action >>= proceed) reader = .ok result last) :
    ∃ value middle, action reader = .ok value middle ∧ proceed value middle = .ok result last := by
  change EStateM.bind action proceed reader = _ at run
  rw [EStateM.bind] at run
  cases first : action reader with
  | ok value middle =>
    rw [first] at run
    exact ⟨value, middle, rfl, run⟩
  | error fault middle =>
    rw [first] at run
    cases run

theorem accept_bind_reader {select : Word → Option α} {next : Option α → Descent β}
    (missing : select reader.cursor.current.word = none) :
    (accept select >>= next) reader.feed = next none reader.feed := by
  by_cases finished : reader.cursor.current.kind = .endOfFile
  · rw [Reader.feed_of_finished finished, accept_bind_finish]
  · rw [Reader.feed_of_unfinished finished, accept_bind_none _ missing]

theorem look_bind_reader {next : Option Word → Descent β} :
    (look >>= next) reader.feed = next reader.upcoming reader.feed := by
  unfold Reader.upcoming
  split
  · rename_i finished
    rw [Reader.feed_of_finished finished, look_bind_finish]
  · rename_i unfinished
    rw [Reader.feed_of_unfinished unfinished, look_bind_token]

theorem only_missing {kind : TokenKind} {text : String} {next : Option Unit → Descent β}
    (nonempty : text ≠ "") (absent : ¬reader.cursor.current.is kind (some text) = true) :
    (accept (Word.only ⟨kind, text⟩) >>= next) reader.feed = next none reader.feed := by
  apply accept_bind_reader
  rw [Word.only, if_neg fun word => absent ((Token.is_iff_word _ kind text nonempty).mpr word)]

end Steps

/-- From this reader the action comes to the end that the reading comes to, if the budget is enough.
The other action is the same with another budget. -/
structure Tracks {α : Type} (least : Nat) (enough : Prop) (action other : Parser α)
    (reading : Except Refusal (α × Feed)) (reader : Reader) : Prop where
  agrees : enough → Agrees (action reader) reading
  /-- The other budget makes no difference. -/
  settles : enough → other reader = action reader
  unspent : enough → ∀ fault last, action reader = .error fault last → fault.cause ≠ .budgetSpent
  /-- Success comes only behind at least so many further tokens, whatever the budget. -/
  moves : ∀ value last, action reader = .ok value last →
    ∃ count, least ≤ count ∧ reader.cursor.Passes count last.cursor
  /-- What lies below on the history makes no difference, and it stays there. -/
  framed : ∀ history, action (reader.over history) = outcomeOver history (action reader)

namespace Tracks

variable {α β : Type} {least : Nat} {enough : Prop} {action other : Parser α}
  {reading : Except Refusal (α × Feed)} {reader : Reader}

theorem shortens (tracks : Tracks least enough action other reading reader) {value : α}
    {last : Reader} (run : action reader = .ok value last) :
    last.feed.length + least ≤ reader.feed.length := by
  obtain ⟨count, _, passes⟩ := tracks.moves value last run
  have lengths := passes.feed_length
  unfold Reader.feed
  omega

theorem weaken (tracks : Tracks least enough action other reading reader) {fewer : Nat}
    {stricter : Prop} (less : fewer ≤ least) (implies : stricter → enough) :
    Tracks fewer stricter action other reading reader where
  agrees covers := tracks.agrees (implies covers)
  settles covers := tracks.settles (implies covers)
  unspent covers := tracks.unspent (implies covers)
  moves value last run := by
    obtain ⟨count, more, passes⟩ := tracks.moves value last run
    exact ⟨count, less.trans more, passes⟩
  framed := tracks.framed

theorem of_same {chosen otherChosen : Parser α} {start : Reader}
    (here : start.cursor = reader.cursor)
    (same : ∀ history, action (reader.over history) = chosen (start.over history))
    (otherSame : other reader = otherChosen start)
    (tracks : Tracks least enough chosen otherChosen reading start) :
    Tracks least enough action other reading reader := by
  have run : action reader = chosen start := by simpa using same []
  refine ⟨?_, ?_, ?_, ?_, ?_⟩
  · rw [run]
    exact tracks.agrees
  · rw [run, otherSame]
    exact tracks.settles
  · rw [run]
    exact tracks.unspent
  · rw [run, ← here]
    exact tracks.moves
  · intro history
    rw [same, run]
    exact tracks.framed history

theorem failed {fault : Fault} (agrees : enough → Agrees (.error fault reader) reading)
    (proper : enough → fault.cause ≠ .budgetSpent)
    (run : ∀ history, action (reader.over history) = .error fault (reader.over history))
    (otherRun : enough → other reader = .error fault reader) :
    Tracks least enough action other reading reader := by
  have here : action reader = .error fault reader := by simpa using run []
  refine ⟨?_, ?_, ?_, ?_, ?_⟩
  · rwa [here]
  · rwa [here]
  · rw [here]
    intro covers found last same
    cases same
    exact proper covers
  · rw [here]
    intro value last same
    cases same
  · intro history
    rw [run, here]
    rfl

theorem spent (starved : ¬enough) :
    Tracks least enough (Parser.refuse fun _ => .budgetSpent) other reading reader := by
  let fault : Fault := ⟨.budgetSpent, reader.cursor.current.line, reader.cursor.current.column⟩
  have run : ∀ history, (Parser.refuse fun _ => .budgetSpent : Parser α) (reader.over history) =
      .error fault (reader.over history) := fun _ => rfl
  exact failed (fun covers => absurd covers starved) (fun covers => absurd covers starved) run
    fun covers => absurd covers starved

theorem refuse {cause : Token → Cause} {expected : Expected} (same : expected.cause = cause) :
    Tracks least enough (Parser.refuse cause : Parser α) (Parser.refuse cause)
      (Descent.refuse expected reader.feed) reader := by
  subst same
  have proper : ∀ token, expected.cause token ≠ .budgetSpent := by
    cases expected <;> simp [Expected.cause]
  refine failed (fun _ => ?_) (fun _ => proper _) (fun _ => rfl) fun _ => rfl
  by_cases finished : reader.cursor.current.kind = .endOfFile
  · rw [Reader.feed_of_finished finished]
    exact .refused ⟨expected, .finish reader.cursor.current⟩ reader
  · rw [Reader.feed_of_unfinished finished]
    exact .refused ⟨expected, .token reader.cursor.current _⟩ reader

theorem pure (value : α) :
    Tracks 0 enough (Pure.pure value) (Pure.pure value)
      ((Pure.pure value : Descent α) reader.feed) reader where
  agrees _ := .ok value reader
  settles _ := rfl
  unspent := by
    intro _ fault last run
    cases run
  moves := by
    intro result last run
    cases run
    exact ⟨0, Nat.le_refl 0, .none _⟩
  framed _ := rfl

theorem bind {rule : Descent α} {proceed further : α → Parser β} {next : α → Descent β}
    (first : Tracks least enough action other (rule reader.feed) reader)
    (later : ∀ value last, last.feed.length + least ≤ reader.feed.length →
      Tracks 0 enough (proceed value) (further value) (next value last.feed) last)
    (keeps : ∀ value, Keeps (next value)) :
    Tracks least enough (action >>= proceed) (other >>= further)
      ((rule >>= next) reader.feed) reader := by
  have behind : ∀ value last, action reader = .ok value last →
      Tracks 0 enough (proceed value) (further value) (next value last.feed) last :=
    fun value last run => later value last (first.shortens run)
  refine ⟨?_, ?_, ?_, ?_, ?_⟩
  · intro covers
    have agrees := first.agrees covers
    change Agrees (EStateM.bind action proceed reader) (rule reader.feed >>= _)
    unfold EStateM.bind
    generalize action reader = outcome at agrees behind
    generalize rule reader.feed = reading at agrees
    cases agrees with
    | ok value last => exact (behind value last rfl).agrees covers
    | late value fault last => exact (keeps value).agrees fault last
    | refused refusal last => exact .refused refusal last
  · intro covers
    change EStateM.bind other further reader = EStateM.bind action proceed reader
    unfold EStateM.bind
    rw [first.settles covers]
    cases run : action reader with
    | ok value last => exact (behind value last run).settles covers
    | error fault last => rfl
  · intro covers found final
    change EStateM.bind action proceed reader = _ → _
    unfold EStateM.bind
    cases run : action reader with
    | ok value last => exact (behind value last run).unspent covers found final
    | error fault last =>
      intro same
      cases same
      exact first.unspent covers _ _ run
  · intro result final run
    obtain ⟨value, middle, ran, rest⟩ := bind_eq_ok run
    obtain ⟨count, more, before⟩ := first.moves value middle ran
    obtain ⟨further, _, after⟩ := (behind value middle ran).moves result final rest
    exact ⟨count + further, by omega, before.trans after⟩
  · intro history
    change EStateM.bind action proceed _ = outcomeOver history (EStateM.bind action proceed reader)
    rw [EStateM.bind, EStateM.bind, first.framed history]
    cases run : action reader with
    | ok value last => exact (behind value last run).framed history
    | error fault last => rfl

theorem current {proceed further : Token → Parser α}
    (tracks : Tracks least enough (proceed reader.cursor.current) (further reader.cursor.current)
      reading reader) :
    Tracks least enough (Parser.current >>= proceed) (Parser.current >>= further) reading
      reader := by
  refine of_same rfl ?_ ?_ tracks
  · intro history
    rfl
  · rfl

theorem operator {ofSymbol? : String → Option β} {proceed further : Option β → Parser α}
    {selected : Option β}
    (found : (if reader.cursor.current.kind = .operator
      then ofSymbol? (reader.cursor.current.text.getD "") else none) = selected)
    (tracks : Tracks least enough (proceed selected) (further selected) reading reader) :
    Tracks least enough (Parser.operator? ofSymbol? >>= proceed)
      (Parser.operator? ofSymbol? >>= further) reading reader := by
  refine of_same rfl (fun history => ?_) (operator_bind found further) tracks
  exact operator_bind (by exact found) proceed

theorem of_fault {proceed further : Parser α} {fault : Fault}
    (run : Parser.advance reader = .error fault reader) (proper : fault.cause ≠ .budgetSpent)
    (agrees : Agrees (.error fault reader) reading) :
    Tracks least enough (Parser.advance >>= fun _ => proceed) (Parser.advance >>= fun _ => further)
      reading reader := by
  refine failed (fun _ => agrees) (fun _ => proper) (fun history => ?_) fun _ =>
    advance_bind_error run
  apply advance_bind_error
  rw [advance_over, run]
  rfl

theorem of_advance {proceed further : Parser α} {moved : Reader}
    (unfinished : reader.cursor.current.kind ≠ .endOfFile)
    (run : Parser.advance reader = .ok () moved)
    (made : reader.cursor.advance = (.ok (), moved.cursor))
    (tracks : Tracks 0 enough proceed further reading moved) :
    Tracks 1 enough (Parser.advance >>= fun _ => proceed) (Parser.advance >>= fun _ => further)
      reading reader where
  agrees := by
    rw [advance_bind run]
    exact tracks.agrees
  settles := by
    rw [advance_bind run, advance_bind run]
    exact tracks.settles
  unspent := by
    rw [advance_bind run]
    exact tracks.unspent
  moves value last ran := by
    rw [advance_bind run] at ran
    obtain ⟨count, _, passes⟩ := tracks.moves value last ran
    exact ⟨count + 1, by omega, .more unfinished made passes⟩
  framed history := by
    have above : Parser.advance (reader.over history) = .ok () (moved.over history) := by
      rw [advance_over, run]
      rfl
    rw [advance_bind run, advance_bind above]
    exact tracks.framed history

theorem advance {proceed further : Parser α} {next : Descent α}
    (unfinished : reader.cursor.current.kind ≠ .endOfFile)
    (later : ∀ last, last.feed = reader.cursor.scanner.feed →
      Tracks 0 enough proceed further (next last.feed) last)
    (keeps : Keeps next) :
    Tracks 1 enough (Parser.advance >>= fun _ => proceed) (Parser.advance >>= fun _ => further)
      (next reader.cursor.scanner.feed) reader := by
  rcases advance_cases reader with ⟨fault, run, proper, ahead⟩ | ⟨moved, run, made⟩
  · rw [ahead]
    exact of_fault run proper (keeps.agrees fault reader)
  · have ahead : moved.feed = reader.cursor.scanner.feed := Cursor.feed_of_advance made
    rw [← ahead]
    exact of_advance unfinished run made (later moved ahead)

/-- A look at the next token is undone by the step back, and what is done then starts at the same
token. -/
theorem probe {test : Token → Bool} {yes no otherYes otherNo : Parser α}
    (unfinished : reader.cursor.current.kind ≠ .endOfFile)
    (faulty : ∀ fault, reader.cursor.scanner.feed = .fault fault →
      Agrees (.error fault reader) reading)
    (first : ∀ moved : Reader, moved.feed = reader.cursor.scanner.feed →
      test moved.cursor.current = true → Tracks 0 enough yes otherYes reading moved)
    (second : ∀ moved : Reader, moved.feed = reader.cursor.scanner.feed →
      test moved.cursor.current = false →
      Tracks 1 enough no otherNo reading ⟨reader.cursor, moved.taken⟩) :
    Tracks 1 enough
      (do
        Parser.advance
        if test (← Parser.current) then yes
        else
          Parser.rewind
          no)
      (do
        Parser.advance
        if test (← Parser.current) then otherYes
        else
          Parser.rewind
          otherNo)
      reading reader := by
  rcases advance_cases reader with ⟨fault, run, proper, ahead⟩ | ⟨moved, run, made⟩
  · exact of_fault run proper (faulty fault ahead)
  have ahead : moved.feed = reader.cursor.scanner.feed := Cursor.feed_of_advance made
  cases holds : test moved.cursor.current with
  | true =>
    refine of_advance unfinished run made (.current ?_)
    rw [if_pos holds, if_pos holds]
    exact first moved ahead holds
  | false =>
    have back : ∀ {start behind : Reader} (_ : Parser.advance start = .ok () behind)
        (_ : test behind.cursor.current = false) (yes no : Parser α),
        (Parser.advance >>= fun _ => Parser.current >>= fun token =>
          if test token then yes else Parser.rewind >>= fun _ => no) start =
        no ⟨start.cursor, behind.taken⟩ := by
      intro start behind ran fails yes no
      rw [advance_bind ran, current_bind, if_neg (by simp [fails]), rewind_bind ran]
    have here : (Reader.mk reader.cursor moved.taken).cursor = reader.cursor := rfl
    refine of_same here (fun history => ?_) (back run holds otherYes otherNo)
      (second moved ahead holds)
    have above : Parser.advance (reader.over history) = .ok () (moved.over history) := by
      rw [advance_over, run]
      rfl
    exact back above holds yes no

theorem accept {select : Word → Option β} {value : β} {proceed further : Parser α}
    {next : Option β → Descent α} (unfinished : reader.cursor.current.kind ≠ .endOfFile)
    (found : select reader.cursor.current.word = some value)
    (later : ∀ last, last.feed.length < reader.feed.length →
      Tracks 0 enough proceed further (next (some value) last.feed) last)
    (keeps : Keeps (next (some value))) :
    Tracks 1 enough (Parser.advance >>= fun _ => proceed) (Parser.advance >>= fun _ => further)
      ((Descent.accept select >>= next) reader.feed) reader := by
  rw [Reader.feed_of_unfinished unfinished, accept_bind_some _ found]
  refine advance unfinished (fun last behind => later last ?_) keeps
  rw [Reader.feed_of_unfinished unfinished, behind]
  exact Nat.lt_succ_self _

/-- The test that the parser makes for one fixed word is that of `Word.only`. -/
theorem only {kind : TokenKind} {text : String} {proceed further : Parser α}
    {next : Option Unit → Descent α} (nonempty : text ≠ "") (unfinished : kind ≠ .endOfFile)
    (stands : reader.cursor.current.is kind (some text) = true)
    (later : ∀ last, last.feed.length < reader.feed.length →
      Tracks 0 enough proceed further (next (some ()) last.feed) last)
    (keeps : Keeps (next (some ()))) :
    Tracks 1 enough (Parser.advance >>= fun _ => proceed) (Parser.advance >>= fun _ => further)
      ((Descent.accept (Word.only ⟨kind, text⟩) >>= next) reader.feed) reader := by
  have found : Word.only ⟨kind, text⟩ reader.cursor.current.word = some () := by
    rw [(Token.is_iff_word _ kind text nonempty).mp stands, Word.only, if_pos rfl]
  exact accept (Token.unfinished_of_is stands unfinished) found later keeps

theorem pass {symbol : String} (nonempty : symbol ≠ "") :
    Tracks 1 enough (Parser.pass symbol) (Parser.pass symbol)
      (Descent.pass symbol reader.feed) reader := by
  rw [pass_eq]
  refine current ?_
  by_cases stands : reader.cursor.current.isOperator symbol = true
  · have alone : (Parser.advance >>= fun _ => Pure.pure ()) = Parser.advance := bind_pure _
    rw [if_pos stands, ← alone]
    exact only nonempty (by decide) stands (fun last _ => pure ()) (keeps_pure ())
  · rw [if_neg stands, Word.symbol, only_missing nonempty stands]
    exact refuse rfl

theorem closed {rule : Descent α} {symbol : String} (nonempty : symbol ≠ "")
    (first : Tracks least enough action other (rule reader.feed) reader) (wrap : α → β) :
    Tracks least enough
      (action >>= fun value => Parser.pass symbol >>= fun _ => Pure.pure (wrap value))
      (other >>= fun value => Parser.pass symbol >>= fun _ => Pure.pure (wrap value))
      ((rule >>= fun value => Descent.pass symbol >>= fun _ => Pure.pure (wrap value)) reader.feed)
      reader := by
  refine bind first (fun value last _ => ?_) fun _ => ((looks_pass symbol).bind _).keeps
  have passed : Tracks 1 enough (Parser.pass symbol) (Parser.pass symbol) _ last := pass nonempty
  exact bind (passed.weaken (Nat.zero_le 1) id) (fun _ _ _ => pure _) fun _ => keeps_pure _

theorem wrapped {rule : Descent α}
    (first : Tracks least enough action other (rule reader.feed) reader) (wrap : α → β) :
    Tracks least enough (action >>= fun value => Pure.pure (wrap value))
      (other >>= fun value => Pure.pure (wrap value))
      ((rule >>= fun value => Pure.pure (wrap value)) reader.feed) reader :=
  bind first (fun _ _ _ => pure _) fun _ => keeps_pure _

end Tracks

end WhileLang
