import WhileLang.Proofs.Grammar

/-!
# Descent over a feed

The grammar read off a feed by recursive descent that never steps back: whether a name is assigned
to is decided by looking at the word behind it. There is no budget. Each rule hands on a feed
shorter than its own, and the functions of `Bounded` carry the proof of that in their results; the
rules themselves are these functions without the proofs, and their equations are all that later
modules use.

A fault in the feed is met where a rule looks at it, not where the token before it is passed.
-/

namespace WhileLang

set_option autoImplicit false

inductive Expected where
  | operator (symbol : String)
  | operand
  | statement
  deriving DecidableEq, Repr

def Expected.cause : Expected → Token → Cause
  | operator symbol => .missingOperator symbol
  | operand => .missingOperand
  | statement => .strayKeyword

structure Refusal where
  expected : Expected
  feed : Feed

/-- A fault in the feed is reported as it is. -/
def Refusal.fault (refusal : Refusal) : Fault :=
  match refusal.feed with
  | .token token _ | .finish token => ⟨refusal.expected.cause token, token.line, token.column⟩
  | .fault fault => fault

inductive Opening where
  | print
  | branch
  | loop

def Opening.word : Opening → Word
  | print => .keyword "print"
  | branch => .keyword "if"
  | loop => .keyword "while"

inductive Operand where
  | name (text : String)
  | numeral (digits : String)
  | group

def Operand.word : Operand → Word
  | name text => .name text
  | numeral digits => .numeral digits
  | group => .symbol "("

namespace Word

def opening? (word : Word) : Option Opening :=
  if word = keyword "print" then some .print
  else if word = keyword "if" then some .branch
  else if word = keyword "while" then some .loop
  else none

def operand? (word : Word) : Option Operand :=
  if word.kind = .identifier then some (.name word.text)
  else if word.kind = .numeric then some (.numeral word.text)
  else if word = symbol "(" then some .group
  else none

def name? (word : Word) : Option String :=
  if word.kind = .identifier then some word.text else none

def only (expected word : Word) : Option Unit :=
  if word = expected then some () else none

theorem eq_of_only {expected word : Word} {value : Unit} (found : only expected word = some value) :
    word = expected := by
  unfold only at found
  split at found
  · assumption
  · cases found

theorem only_self (expected : Word) : only expected expected = some () :=
  if_pos rfl

theorem eq_of_opening {word : Word} {opening : Opening} (found : word.opening? = some opening) :
    word = opening.word := by
  unfold opening? at found
  split at found
  · cases found
    assumption
  split at found
  · cases found
    assumption
  split at found
  · cases found
    assumption
  · cases found

theorem eq_of_operand {word : Word} {operand : Operand} (found : word.operand? = some operand) :
    word = operand.word := by
  cases word
  unfold operand? at found
  split at found
  · cases found
    simp_all [Operand.word, name]
  split at found
  · cases found
    simp_all [Operand.word, numeral]
  split at found
  · cases found
    assumption
  · cases found

end Word

def Sign.Stops (sign : Sign) : Prop :=
  sign = .finish ∨ sign = .word (.symbol "\x7d")

/-- A value and the feed behind it, which is shorter than `length`. -/
structure Front (α : Type) (length : Nat) where
  value : α
  rest : Feed
  shorter : rest.length < length

abbrev Reading (α : Type) (length : Nat) : Type :=
  Except Refusal (Front α length)

namespace Bounded

def look (feed : Feed) : Except Refusal (Option Word) :=
  match feed with
  | .token token _ => .ok (some token.word)
  | .finish _ => .ok none
  | .fault _ => .error ⟨.operand, feed⟩

def accept {α : Type} (select : Word → Option α) (feed : Feed) :
    Except Refusal (Option (Front α feed.length)) :=
  match feed with
  | .token token rest =>
    .ok ((select token.word).map fun value => ⟨value, rest, Nat.lt_succ_self _⟩)
  | .finish _ => .ok none
  | .fault _ => .error ⟨.operand, feed⟩

def target (feed : Feed) : Except Refusal (Option (Front String feed.length)) := do
  match ← accept Word.name? feed with
  | some ⟨name, rest, _⟩ =>
    match ← accept (Word.only (.symbol "=")) rest with
    | some ⟨_, after, _⟩ => return some ⟨name, after, by omega⟩
    | none => return none
  | none => return none

def pass (symbol : String) (feed : Feed) : Reading Unit feed.length := do
  match ← accept (Word.only (.symbol symbol)) feed with
  | some front => return front
  | none => throw ⟨.operator symbol, feed⟩

mutual

def statements (feed : Feed) : Reading (List Node) (feed.length + 1) := do
  match ← look feed with
  | none => return ⟨[], feed, by omega⟩
  | some word =>
    if word = .symbol "\x7d" then return ⟨[], feed, by omega⟩
    else
      let ⟨first, rest, _⟩ ← statement feed
      let ⟨others, behind, _⟩ ← statements rest
      return ⟨first :: others, behind, by omega⟩
termination_by 16 * feed.length + 9

def block (feed : Feed) : Reading Node feed.length := do
  match ← accept (Word.only (.symbol "\x7b")) feed with
  | some ⟨_, rest, _⟩ =>
    let ⟨inner, last, _⟩ ← statements rest
    let ⟨_, behind, _⟩ ← pass "\x7d" last
    return ⟨.ofStatements inner, behind, by omega⟩
  | none => statement feed
termination_by 16 * feed.length + 9

def condition (feed : Feed) : Reading Node feed.length := do
  let ⟨_, rest, _⟩ ← pass "(" feed
  let ⟨node, last, _⟩ ← expression rest
  let ⟨_, behind, _⟩ ← pass ")" last
  return ⟨node, behind, by omega⟩

def statement (feed : Feed) : Reading Node feed.length := do
  match ← accept Word.opening? feed with
  | some ⟨.print, rest, _⟩ =>
    let ⟨node, last, _⟩ ← expression rest
    let ⟨_, behind, _⟩ ← pass ";" last
    return ⟨.print node, behind, by omega⟩
  | some ⟨.branch, rest, _⟩ =>
    let ⟨test, middle, _⟩ ← condition rest
    let ⟨positive, last, _⟩ ← block middle
    match ← accept (Word.only (.keyword "else")) last with
    | some ⟨_, other, _⟩ =>
      let ⟨negative, behind, _⟩ ← block other
      return ⟨.ifElse test positive negative, behind, by omega⟩
    | none => return ⟨.ifThen test positive, last, by omega⟩
  | some ⟨.loop, rest, _⟩ =>
    let ⟨test, middle, _⟩ ← condition rest
    let ⟨body, behind, _⟩ ← block middle
    return ⟨.whileLoop test body, behind, by omega⟩
  | none =>
    if (← look feed).any (·.kind = .keyword) then throw ⟨.statement, feed⟩
    else
      let ⟨node, last, _⟩ ← expression feed
      let ⟨_, behind, _⟩ ← pass ";" last
      return ⟨node, behind, by omega⟩
termination_by 16 * feed.length + 8

def expression (feed : Feed) : Reading Node feed.length := do
  match ← target feed with
  | some ⟨name, rest, _⟩ =>
    let ⟨node, behind, _⟩ ← expression rest
    return ⟨.assign name node, behind, by omega⟩
  | none => binary .logical feed
termination_by 16 * feed.length + 7
decreasing_by
  · omega
  · simp only [Level.rank]
    omega

def binary (level : Level) (feed : Feed) : Reading Node feed.length := do
  let ⟨left, rest, _⟩ ← (match found : level.tighter? with
    | some tighter => binary tighter feed
    | none => unary feed : Reading Node feed.length)
  match ← accept (Word.operator? level) rest with
  | some ⟨op, other, _⟩ =>
    let ⟨right, behind, _⟩ ← binary level other
    return ⟨.binary op left right, behind, by omega⟩
  | none => return ⟨left, rest, by omega⟩
termination_by 16 * feed.length + 3 + level.rank
decreasing_by
  · have tighterRank := Level.rank_tighter found
    omega
  · omega
  · omega

def unary (feed : Feed) : Reading Node feed.length := do
  match ← accept Word.unaryOperator? feed with
  | some ⟨op, rest, _⟩ =>
    let ⟨node, behind, _⟩ ← unary rest
    return ⟨.unary op node, behind, by omega⟩
  | none => factor feed
termination_by 16 * feed.length + 2

def factor (feed : Feed) : Reading Node feed.length := do
  match ← accept Word.operand? feed with
  | some ⟨.name text, rest, shorter⟩ => return ⟨.reference text, rest, shorter⟩
  | some ⟨.numeral digits, rest, shorter⟩ =>
    return ⟨.literal (numeralValue digits.toList), rest, shorter⟩
  | some ⟨.group, rest, _⟩ =>
    let ⟨node, last, _⟩ ← expression rest
    let ⟨_, behind, _⟩ ← pass ")" last
    return ⟨node, behind, by omega⟩
  | none => throw ⟨.operand, feed⟩
termination_by 16 * feed.length + 1

end

end Bounded

/-- Forgets that the rest is shorter. -/
def Reading.plain {α : Type} {length : Nat} (reading : Reading α length) :
    Except Refusal (α × Feed) :=
  reading.map fun front => (front.value, front.rest)

/-- A rule reads a value off a feed and leaves the rest of it. -/
abbrev Descent := StateT Feed (Except Refusal)

namespace Descent

def refuse {α : Type} (expected : Expected) : Descent α := fun feed =>
  .error ⟨expected, feed⟩

def look : Descent (Option Word) := fun feed =>
  (Bounded.look feed).map fun word => (word, feed)

/-- A selection that finds nothing stays where it is. -/
def choice {α : Type} (feed : Feed) :
    Except Refusal (Option (Front α feed.length)) → Except Refusal (Option α × Feed)
  | .ok (some front) => .ok (some front.value, front.rest)
  | .ok none => .ok (none, feed)
  | .error refusal => .error refusal

def accept {α : Type} (select : Word → Option α) : Descent (Option α) := fun feed =>
  choice feed (Bounded.accept select feed)

def target : Descent (Option String) := fun feed =>
  choice feed (Bounded.target feed)

def pass (symbol : String) : Descent Unit := fun feed => (Bounded.pass symbol feed).plain

def statements : Descent (List Node) := fun feed => (Bounded.statements feed).plain

def block : Descent Node := fun feed => (Bounded.block feed).plain

def condition : Descent Node := fun feed => (Bounded.condition feed).plain

def statement : Descent Node := fun feed => (Bounded.statement feed).plain

def expression : Descent Node := fun feed => (Bounded.expression feed).plain

def binary (level : Level) : Descent Node := fun feed => (Bounded.binary level feed).plain

def unary : Descent Node := fun feed => (Bounded.unary feed).plain

def factor : Descent Node := fun feed => (Bounded.factor feed).plain

def operand (level : Level) : Descent Node :=
  match level.tighter? with
  | some tighter => binary tighter
  | none => unary

section Equations

variable {α β : Type} {length bound : Nat} {feed : Feed}

theorem plain_bind {reading : Reading α length} {rule : Descent α}
    {proceed : Front α length → Reading β bound} {next : α → Descent β}
    (first : reading.plain = rule feed)
    (later : ∀ front, (proceed front).plain = next front.value front.rest) :
    Reading.plain (reading >>= proceed) = (rule >>= next) feed := by
  change _ = rule feed >>= fun pair => next pair.1 pair.2
  rw [← first]
  cases reading with
  | error refusal => rfl
  | ok front => exact later front

theorem choice_bind {reading : Except Refusal (Option (Front α feed.length))}
    {rule : Descent (Option α)} {proceed : Option (Front α feed.length) → Reading β bound}
    {next : Option α → Descent β} (first : choice feed reading = rule feed)
    (found : ∀ front, (proceed (some front)).plain = next (some front.value) front.rest)
    (nothing : (proceed none).plain = next none feed) :
    Reading.plain (reading >>= proceed) = (rule >>= next) feed := by
  change _ = rule feed >>= fun pair => next pair.1 pair.2
  rw [← first]
  rcases reading with refusal | front
  · rfl
  · cases front with
    | none => exact nothing
    | some front => exact found front

theorem look_bind {proceed : Option Word → Reading β bound} {next : Option Word → Descent β}
    (later : ∀ word, (proceed word).plain = next word feed) :
    Reading.plain (Bounded.look feed >>= proceed) = (look >>= next) feed := by
  change _ = look feed >>= fun pair => next pair.1 pair.2
  rw [look]
  cases Bounded.look feed with
  | error refusal => rfl
  | ok word => exact later word

end Equations

theorem pass_eq (symbol : String) :
    pass symbol = (do
      match ← accept (Word.only (.symbol symbol)) with
      | some _ => return ()
      | none => refuse (.operator symbol)) := by
  funext feed
  rw [pass, Bounded.pass]
  exact choice_bind rfl (fun _ => rfl) rfl

theorem statements_eq :
    statements = (do
      match ← look with
      | none => return []
      | some word =>
        if word = .symbol "\x7d" then return []
        else
          let first ← statement
          let rest ← statements
          return first :: rest) := by
  funext feed
  rw [statements, Bounded.statements]
  apply look_bind
  rintro (_ | word)
  · rfl
  · dsimp only
    split
    · rfl
    · exact plain_bind rfl fun front => plain_bind rfl fun _ => rfl

theorem block_eq :
    block = (do
      match ← accept (Word.only (.symbol "\x7b")) with
      | some _ =>
        let inner ← statements
        pass "\x7d"
        return .ofStatements inner
      | none => statement) := by
  funext feed
  rw [block, Bounded.block]
  exact choice_bind rfl (fun front => plain_bind rfl fun _ => plain_bind rfl fun _ => rfl) rfl

theorem condition_eq :
    condition = (do
      pass "("
      let node ← expression
      pass ")"
      return node) := by
  funext feed
  rw [condition, Bounded.condition]
  exact plain_bind rfl fun _ => plain_bind rfl fun _ => plain_bind rfl fun _ => rfl

theorem statement_eq :
    statement = (do
      match ← accept Word.opening? with
      | some .print =>
        let node ← expression
        pass ";"
        return .print node
      | some .branch =>
        let test ← condition
        let positive ← block
        match ← accept (Word.only (.keyword "else")) with
        | some _ => return .ifElse test positive (← block)
        | none => return .ifThen test positive
      | some .loop =>
        let test ← condition
        let body ← block
        return .whileLoop test body
      | none =>
        if (← look).any (·.kind = .keyword) then refuse .statement
        else
          let node ← expression
          pass ";"
          return node) := by
  funext feed
  rw [statement, Bounded.statement]
  refine choice_bind rfl ?_ ?_
  · rintro ⟨opening, rest, shorter⟩
    cases opening with
    | print => exact plain_bind rfl fun _ => plain_bind rfl fun _ => rfl
    | branch =>
      refine plain_bind rfl fun _ => plain_bind rfl fun _ => choice_bind rfl (fun _ => ?_) rfl
      exact plain_bind rfl fun _ => rfl
    | loop => exact plain_bind rfl fun _ => plain_bind rfl fun _ => rfl
  · apply look_bind
    intro word
    dsimp only
    split
    · rfl
    · exact plain_bind rfl fun _ => plain_bind rfl fun _ => rfl

theorem expression_eq :
    expression = (do
      match ← target with
      | some name => return .assign name (← expression)
      | none => binary .logical) := by
  funext feed
  rw [expression, Bounded.expression]
  exact choice_bind rfl (fun _ => plain_bind rfl fun _ => rfl) rfl

theorem binary_eq (level : Level) :
    binary level = (do
      let left ← operand level
      match ← accept (Word.operator? level) with
      | some op => return .binary op left (← binary level)
      | none => return left) := by
  funext feed
  rw [binary, Bounded.binary]
  have first : Reading.plain (match _found : level.tighter? with
      | some tighter => Bounded.binary tighter feed
      | none => Bounded.unary feed) = operand level feed := by
    cases level <;> rfl
  exact plain_bind first fun _ => choice_bind rfl (fun _ => plain_bind rfl fun _ => rfl) rfl

theorem unary_eq :
    unary = (do
      match ← accept Word.unaryOperator? with
      | some op => return .unary op (← unary)
      | none => factor) := by
  funext feed
  rw [unary, Bounded.unary]
  exact choice_bind rfl (fun _ => plain_bind rfl fun _ => rfl) rfl

theorem factor_eq :
    factor = (do
      match ← accept Word.operand? with
      | some (.name text) => return .reference text
      | some (.numeral digits) => return .literal (numeralValue digits.toList)
      | some .group =>
        let node ← expression
        pass ")"
        return node
      | none => refuse .operand) := by
  funext feed
  rw [factor, Bounded.factor]
  refine choice_bind rfl ?_ rfl
  rintro ⟨operand, rest, shorter⟩
  cases operand with
  | name text => rfl
  | numeral digits => rfl
  | group => exact plain_bind rfl fun _ => plain_bind rfl fun _ => rfl

theorem bind_ok {α β : Type} {rule : Descent α} {next : α → Descent β} {feed rest : Feed}
    {value : α}
    (read : rule feed = .ok (value, rest)) : (rule >>= next) feed = next value rest := by
  change rule feed >>= _ = _
  rw [read]
  rfl

section Selection

variable {α β : Type} {select : Word → Option α} {next : Option α → Descent β} {token : Token}

theorem accept_bind_some {value : α} (rest : Feed) (found : select token.word = some value) :
    (accept select >>= next) (.token token rest) = next (some value) rest := by
  change choice _ (.ok ((select token.word).map _)) >>= _ = _
  rw [found]
  rfl

theorem accept_bind_none (rest : Feed) (missing : select token.word = none) :
    (accept select >>= next) (.token token rest) = next none (.token token rest) := by
  change choice _ (.ok ((select token.word).map _)) >>= _ = _
  rw [missing]
  rfl

theorem accept_bind_finish :
    (accept select >>= next) (.finish token) = next none (.finish token) :=
  rfl

theorem pass_bind_some {symbol : String} {next : Unit → Descent β} (rest : Feed)
    (stands : token.word = .symbol symbol) :
    (pass symbol >>= next) (.token token rest) = next () rest := by
  have found : Word.only (.symbol symbol) token.word = some () := by
    rw [stands, Word.only, if_pos rfl]
  rw [pass_eq, bind_assoc, accept_bind_some rest found]
  rfl

end Selection

section Target

variable {β : Type} {next : Option String → Descent β} {token other : Token} {rest : Feed}

theorem target_bind_missing (missing : token.kind ≠ .identifier) :
    (target >>= next) (.token token rest) = next none (.token token rest) := by
  have absent : token.word.name? = none := if_neg missing
  have nothing : target (.token token rest) = .ok (none, .token token rest) := by
    simp only [target, Bounded.target, Bounded.accept, absent]
    rfl
  change target (.token token rest) >>= _ = _
  rw [nothing]
  rfl

theorem target_bind_finish : (target >>= next) (.finish token) = next none (.finish token) :=
  rfl

theorem target_bind_some (name : token.kind = .identifier) (stands : other.word = .symbol "=") :
    (target >>= next) (.token token (.token other rest)) = next (some token.word.text) rest := by
  have found : token.word.name? = some token.word.text := if_pos name
  have equals : Word.only (.symbol "=") other.word = some () := by
    rw [stands, Word.only, if_pos rfl]
  have assigned : target (.token token (.token other rest)) =
      .ok (some token.word.text, rest) := by
    simp only [target, Bounded.target, Bounded.accept, found, Option.map_some, bind,
      Except.bind, equals]
    rfl
  change target _ >>= _ = _
  rw [assigned]
  rfl

theorem target_bind_none (name : token.kind = .identifier)
    (absent : rest.sign ≠ .word (.symbol "=")) (sound : ∀ fault, rest ≠ .fault fault) :
    (target >>= next) (.token token rest) = next none (.token token rest) := by
  have found : token.word.name? = some token.word.text := if_pos name
  have nothing : target (.token token rest) = .ok (none, .token token rest) := by
    cases rest with
    | token other behind =>
      have unequal : Word.only (.symbol "=") other.word = none := by
        rw [Word.only, if_neg fun same => absent (congrArg Sign.word same)]
      simp only [target, Bounded.target, Bounded.accept, found, Option.map_some, bind, Except.bind,
        unequal]
      rfl
    | finish other =>
      simp only [target, Bounded.target, Bounded.accept, found, Option.map_some, bind, Except.bind]
      rfl
    | fault fault => exact absurd rfl (sound fault)
  change target _ >>= _ = _
  rw [nothing]
  rfl

theorem target_bind_fault {fault : Fault} (name : token.kind = .identifier) :
    (target >>= next) (.token token (.fault fault)) = .error ⟨.operand, .fault fault⟩ := by
  have found : token.word.name? = some token.word.text := if_pos name
  have stopped : target (.token token (.fault fault)) = .error ⟨.operand, .fault fault⟩ := by
    simp only [target, Bounded.target, Bounded.accept, found, Option.map_some, bind, Except.bind]
    rfl
  change target _ >>= _ = _
  rw [stopped]
  rfl

end Target

theorem look_bind_token {β : Type} {next : Option Word → Descent β} (token : Token) (rest : Feed) :
    (look >>= next) (.token token rest) = next (some token.word) (.token token rest) :=
  rfl

theorem look_bind_finish {β : Type} {next : Option Word → Descent β} (token : Token) :
    (look >>= next) (.finish token) = next none (.finish token) :=
  rfl

end Descent

end WhileLang
