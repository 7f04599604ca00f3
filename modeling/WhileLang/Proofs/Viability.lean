import WhileLang.Proofs.Lexeme
import WhileLang.Proofs.Outcome

/-!
# Words before a refusal

Where a rule accepts, the words passed spell its value. Where it refuses, they can be completed to
words that spell some value, so that the refusal is at the first word that does not fit. Every rule
is judged so by the same induction that its calls follow.
-/

namespace WhileLang

set_option autoImplicit false

namespace Descent

/-- Words of which some continuation spells the phrase. -/
def Viable (phrase : Node → Phrase) (spelling : List Word) : Prop :=
  ∃ node more, Derives (phrase node) (spelling ++ more) ∧ ∀ word ∈ more, word.Written

/-- What holds at the end of a rule for expressions. No expression is refused at a name. -/
def Judged (phrase : Node → Phrase) : Except Expected Node → List Word → Sign → Prop
  | .ok node, spelling, _ => Derives (phrase node) spelling
  | .error _, spelling, sign =>
    Viable phrase spelling ∧ (spelling = [] → ∀ text, sign ≠ .word (.name text))

def ConditionJudged : Except Expected Node → List Word → Sign → Prop
  | .ok node, spelling, _ =>
    ∃ test, Derives (.expression node) test ∧ spelling = .symbol "(" :: test ++ [.symbol ")"]
  | .error _, spelling, _ =>
    ∃ node test more, Derives (.expression node) test ∧
      spelling ++ more = .symbol "(" :: test ++ [.symbol ")"] ∧ ∀ word ∈ more, word.Written

/-- What holds at the end of a rule for single statements. A statement that dangles has been read on
up to a sign other than `else`. -/
def StatementJudged (phrase : Bool → Node → Phrase) :
    Except Expected Node → List Word → Sign → Prop
  | .ok node, spelling, sign =>
    ∃ dangling, Derives (phrase dangling node) spelling ∧
      (dangling = true → sign ≠ .word (.keyword "else"))
  | .error _, spelling, _ => ∃ dangling, Viable (phrase dangling) spelling

def StatementsJudged : Except Expected (List Node) → List Word → Sign → Prop
  | .ok nodes, spelling, sign => Derives (.statements nodes) spelling ∧ sign.Stops
  | .error _, spelling, _ =>
    ∃ nodes more, Derives (.statements nodes) (spelling ++ more) ∧ ∀ word ∈ more, word.Written

structure Judging (measure : Nat) : Prop where
  statements : ∀ feed : Feed, 16 * feed.length + 9 ≤ measure →
    Meets Descent.statements feed StatementsJudged
  block : ∀ feed : Feed, 16 * feed.length + 9 ≤ measure →
    Meets Descent.block feed (StatementJudged .block)
  statement : ∀ feed : Feed, 16 * feed.length + 8 ≤ measure →
    Meets Descent.statement feed (StatementJudged .statement)
  expression : ∀ feed : Feed, 16 * feed.length + 7 ≤ measure →
    Meets Descent.expression feed (Judged .expression)
  binary : ∀ (level : Level) (feed : Feed), 16 * feed.length + 3 + level.rank ≤ measure →
    Meets (Descent.binary level) feed (Judged (.binary level))
  unary : ∀ feed : Feed, 16 * feed.length + 2 ≤ measure →
    Meets Descent.unary feed (Judged .unary)
  factor : ∀ feed : Feed, 16 * feed.length + 1 ≤ measure →
    Meets Descent.factor feed (Judged .factor)

theorem Viable.wrap {inner outer : Node → Phrase} {spelling : List Word}
    (viable : Viable inner spelling)
    (front back : List Word) (written : ∀ word ∈ back, word.Written)
    (build : ∀ node inside, Derives (inner node) inside →
      ∃ node, Derives (outer node) (front ++ (inside ++ back))) :
    Viable outer (front ++ spelling) := by
  obtain ⟨node, more, derives, known⟩ := viable
  obtain ⟨built, whole⟩ := build node _ derives
  refine ⟨built, more ++ back, ?_, ?_⟩
  · simpa using whole
  · exact List.forall_mem_append.mpr ⟨known, written⟩

theorem Judged.mono {inner outer : Node → Phrase} {verdict : Except Expected Node}
    {spelling : List Word} {sign : Sign}
    (build : ∀ node inside, Derives (inner node) inside → Derives (outer node) inside)
    (judged : Judged inner verdict spelling sign) : Judged outer verdict spelling sign := by
  cases verdict with
  | error expected =>
    obtain ⟨⟨node, more, derives, written⟩, unnamed⟩ := judged
    exact ⟨⟨node, more, build _ _ derives, written⟩, unnamed⟩
  | ok node => exact build _ _ judged

theorem derives_zero : Derives (.expression (.literal (numeralValue "0".toList))) [.numeral "0"] :=
  .of_factor (.literal "0")

theorem derives_blank :
    Derives (.block false (.literal (numeralValue "0".toList))) [.numeral "0", .symbol ";"] :=
  .plain (.evaluate derives_zero)

namespace Judging

variable {measure : Nat} (judging : Judging measure) (feed : Feed)

include judging

theorem factor_step (bound : 16 * feed.length + 1 ≤ measure + 1) :
    Meets Descent.factor feed (Judged .factor) := by
  have start : Viable .factor [] :=
    ⟨_, [.numeral "0"], .literal "0", by decide⟩
  rw [factor_eq]
  refine Meets.accept ?_ ?_ ?_
  · intro token rest operand split selected
    rw [Word.eq_of_operand selected]
    cases operand with
    | name text => exact Meets.pure (.reference text)
    | numeral digits => exact Meets.pure (.literal digits)
    | group =>
      have shorter : rest.length + 1 = feed.length := by rw [split]; rfl
      refine Meets.bind (judging.expression rest (by omega)) ?_ ?_
      · intro expected spelling sign refused
        refine ⟨refused.1.wrap [.symbol "("] [.symbol ")"] (by decide) ?_, by simp⟩
        exact fun node inside derives => ⟨node, .group derives⟩
      · intro node tokens tail _ derives
        refine Meets.pass ?_ ?_
        · intro _ _ _ _
          exact Meets.pure (.group derives)
        · intro _ _
          refine ⟨⟨node, [.symbol ")"], ?_, by decide⟩, by simp⟩
          simpa [Operand.word] using Derives.group derives
  · intro missing
    refine Meets.refuse ⟨start, ?_⟩
    intro _ text stands
    cases missing _ stands
  · intro cause fault
    exact ⟨start, by rw [fault]; simp⟩

theorem unary_step (bound : 16 * feed.length + 2 ≤ measure + 1) :
    Meets Descent.unary feed (Judged .unary) := by
  have start : Viable .unary [] :=
    ⟨_, [.numeral "0"], .unsigned (.literal "0"), by decide⟩
  rw [unary_eq]
  refine Meets.accept ?_ ?_ ?_
  · intro token rest op split selected
    have shorter : rest.length + 1 = feed.length := by rw [split]; rfl
    rw [Word.unary_operator_eq_some selected]
    refine Meets.bind (judging.unary rest (by omega)) ?_ ?_
    · intro expected spelling sign refused
      refine ⟨refused.1.wrap [.symbol op.symbol] [] (by simp) ?_, by simp⟩
      exact fun node inside derives => ⟨_, by simpa using Derives.signed op derives⟩
    · intro node tokens tail _ derives
      exact Meets.pure (by simpa [Judged] using Derives.signed op derives)
  · intro _
    apply (judging.factor feed (by omega)).mono
    intro verdict spelling sign judged
    exact judged.mono fun node inside derives => .unsigned derives
  · intro cause fault
    exact ⟨start, by rw [fault]; simp⟩

theorem operand_step (level : Level) (bound : 16 * feed.length + 3 + level.rank ≤ measure + 1) :
    Meets (Descent.operand level) feed (Judged (.operand level)) := by
  cases level with
  | logical => exact judging.binary .comparison feed (by simp only [Level.rank] at bound ⊢; omega)
  | comparison =>
    exact judging.binary .arithmetic feed (by simp only [Level.rank] at bound ⊢; omega)
  | arithmetic => exact judging.binary .term feed (by simp only [Level.rank] at bound ⊢; omega)
  | term => exact judging.unary feed (by simp only [Level.rank] at bound ⊢; omega)

theorem binary_step (level : Level) (bound : 16 * feed.length + 3 + level.rank ≤ measure + 1) :
    Meets (Descent.binary level) feed (Judged (.binary level)) := by
  rw [binary_eq]
  refine Meets.bind (judging.operand_step feed level bound) ?_ ?_
  · intro expected spelling sign refused
    exact refused.mono fun node inside derives => .single derives
  · intro left tokens tail split derives
    have nonempty : words tokens ≠ [] := by
      obtain ⟨first, rest, spelled, _⟩ := derives.opens (Phrase.operand_ne_statements _ _)
      simp [spelled]
    have whole : Derives (.binary level left) (words tokens) := .single derives
    refine Meets.accept ?_ ?_ ?_
    · intro token rest op splitLater selected
      have shorter : rest.length + 1 ≤ feed.length := by
        rw [split, splitLater, Feed.length_prepend]
        simp only [Feed.length]
        omega
      obtain ⟨stands, rfl⟩ := Word.operator_eq_some selected
      rw [stands]
      refine Meets.bind (judging.binary _ rest (by omega)) ?_ ?_
      · intro expected spelling sign refused
        constructor
        · have inner := refused.1.wrap (words tokens ++ [.symbol op.symbol]) [] (by simp)
            (fun node inside second => ⟨_, by simpa using Derives.apply op derives second⟩)
          simpa using inner
        · simp
      · intro right others behind _ second
        exact Meets.pure (by simpa [Judged] using Derives.apply op derives second)
    · intro _
      exact Meets.pure (by simpa [Judged] using whole)
    · intro cause fault
      refine ⟨⟨left, [], ?_, by simp⟩, ?_⟩
      · simpa using whole
      · simp [nonempty]

theorem assign_step {token other : Token} {rest : Feed} (name : token.kind = .identifier)
    (stands : other.word = .symbol "=") (bound : 16 * rest.length + 7 ≤ measure) :
    Meets Descent.expression (.token token (.token other rest)) (Judged .expression) := by
  have spelled : ∀ node inside, Derives (.expression node) inside →
      Derives (.expression (.assign token.word.text node))
        (token.word :: .symbol "=" :: inside) := by
    intro node inside derives
    have assigned := @Derives.assign token.word.text _ _ derives
    rwa [Token.name_word name] at assigned
  have behind : Meets (Descent.expression >>= fun node =>
        (Pure.pure (.assign token.word.text node) : Descent Node)) rest
      fun verdict spelling sign =>
        Judged .expression verdict (token.word :: .symbol "=" :: spelling) sign := by
    refine Meets.bind (judging.expression rest bound) ?_ ?_
    · intro expected spelling sign refused
      refine ⟨refused.1.wrap [token.word, .symbol "="] [] (by simp) ?_, by simp⟩
      exact fun node inside derives => ⟨_, by simpa using spelled node inside derives⟩
    · intro node tokens tail _ derives
      exact Meets.pure (by simpa [Judged] using spelled node _ derives)
  -- Two words are passed, so the stability of the rest is lifted over both by hand.
  obtain ⟨verdict, tokens, tail, split, holds, stable⟩ := behind
  refine ⟨verdict, token :: other :: tokens, tail, by rw [split]; rfl, ?_, ?_⟩
  · rw [words_cons, words_cons, stands]
    exact holds
  · intro others last sameWords sameSign
    obtain ⟨first, later, rfl, sameFirst, sameLater⟩ := words_eq_cons sameWords
    obtain ⟨second, following, rfl, sameSecond, sameRest⟩ := words_eq_cons sameLater
    have named : first.kind = .identifier := (congrArg Word.kind sameFirst).trans name
    rw [Feed.prepend_cons, Feed.prepend_cons, expression_eq,
      target_bind_some named (sameSecond.trans stands), sameFirst]
    exact stable following last sameRest sameSign

/-- A name that is not assigned to is read as an operand; the sign behind it is passed too. -/
theorem value_step {token : Token} {rest : Feed} (name : token.kind = .identifier)
    (absent : rest.sign ≠ .word (.symbol "=")) (sound : ∀ cause, rest.sign ≠ .fault cause)
    (bound : 16 * (rest.length + 1) + 6 ≤ measure) :
    Meets Descent.expression (.token token rest) (Judged .expression) := by
  have meets :=
    judging.binary .logical (.token token rest) (by simp only [Feed.length, Level.rank]; omega)
  obtain ⟨verdict, tokens, tail, split, holds, stable⟩ := meets
  have lifted : Judged .expression verdict (words tokens) tail.sign :=
    holds.mono fun node inside derives => .value derives
  cases tokens with
  | nil =>
    -- Nothing would have been passed, but a name is always passed.
    have sign : tail.sign = .word (.name token.word.text) := by
      rw [Token.name_word name]
      change (Feed.prepend [] tail).sign = _
      rw [← split]
      rfl
    cases verdict with
    | error expected => exact absurd sign (holds.2 rfl _)
    | ok node =>
      obtain ⟨first, others, impossible, _⟩ := Derives.opens holds (by simp)
      cases impossible
  | cons first tokens =>
    rw [Feed.prepend_cons, Feed.token.injEq] at split
    obtain ⟨rfl, split⟩ := split
    refine ⟨verdict, token :: tokens, tail, by rw [split]; rfl, lifted, ?_⟩
    intro others last sameWords sameSign
    rw [← stable others last sameWords sameSign]
    obtain ⟨first, later, rfl, sameFirst, sameLater⟩ := words_eq_cons sameWords
    have named : first.kind = .identifier := (congrArg Word.kind sameFirst).trans name
    have sameRest : (Feed.prepend later last).sign = rest.sign := by
      rw [split]
      exact Feed.sign_prepend_congr sameLater sameSign
    rw [Feed.prepend_cons, expression_eq, target_bind_none named (by rwa [sameRest]) ?_]
    intro fault broken
    apply sound fault.cause
    rw [← sameRest, broken]
    rfl

omit judging in
/-- A fault behind a name is met as the rule looks whether the name is assigned to. -/
theorem interrupted_step {token : Token} {fault : Fault} (name : token.kind = .identifier) :
    Meets Descent.expression (.token token (.fault fault)) (Judged .expression) := by
  have alone : Derives (.factor (.reference token.word.text)) [token.word] := by
    rw [← Token.name_word name]
    exact .reference _
  refine ⟨.error .operand, [token], .fault fault, rfl,
    ⟨⟨_, [], .of_factor alone, by simp⟩, by simp⟩, ?_⟩
  intro others last sameWords sameSign
  obtain ⟨first, later, rfl, sameFirst, sameLater⟩ := words_eq_cons sameWords
  have named : first.kind = .identifier := (congrArg Word.kind sameFirst).trans name
  rw [List.map_eq_nil_iff.mp sameLater]
  cases last with
  | token other rest => cases sameSign
  | finish other => cases sameSign
  | fault other =>
    rw [Feed.prepend_cons, Feed.prepend_nil, expression_eq, target_bind_fault named]
    rfl

theorem unnamed_step (unnamed : ∀ token rest, feed = .token token rest → token.kind ≠ .identifier)
    (bound : 16 * feed.length + 7 ≤ measure + 1) :
    Meets Descent.expression feed (Judged .expression) := by
  have meets := judging.binary .logical feed (by simp only [Level.rank]; omega)
  have lifted : Meets (Descent.binary .logical) feed (Judged .expression) := by
    apply meets.mono
    intro verdict spelling sign judged
    exact judged.mono fun node inside derives => .value derives
  cases feed with
  | token token rest =>
    refine lifted.congr ?_
    intro last same
    cases last with
    | token other behind =>
      have kinds : other.kind = token.kind := congrArg Word.kind (Sign.word.inj same)
      rw [expression_eq]
      exact target_bind_missing (by rw [kinds]; exact unnamed token rest rfl)
    | finish other => cases same
    | fault other => cases same
  | finish token =>
    refine lifted.congr ?_
    intro last same
    cases last with
    | token other behind => cases same
    | finish other =>
      rw [expression_eq]
      exact target_bind_finish
    | fault other => cases same
  | fault fault =>
    have start : Viable .expression [] :=
      ⟨_, [.numeral "0"], derives_zero, by decide⟩
    refine Meets.broken rfl (fun found => ?_) ⟨start, fun _ text same => by cases same⟩
    rw [expression_eq]
    rfl

theorem expression_step (bound : 16 * feed.length + 7 ≤ measure + 1) :
    Meets Descent.expression feed (Judged .expression) := by
  by_cases named : ∃ token rest, feed = .token token rest ∧ token.kind = .identifier
  · obtain ⟨token, rest, rfl, name⟩ := named
    have length : (Feed.token token rest).length = rest.length + 1 := rfl
    cases rest with
    | token other rest =>
      have shorter : (Feed.token other rest).length = rest.length + 1 := rfl
      by_cases stands : other.word = .symbol "="
      · exact judging.assign_step name stands (by omega)
      · refine judging.value_step name ?_ (fun cause same => by cases same) (by omega)
        exact fun same => stands (Sign.word.inj same)
    | finish other =>
      exact judging.value_step name (fun same => by cases same) (fun cause same => by cases same)
        (by omega)
    | fault fault => exact interrupted_step name
  · refine judging.unnamed_step feed ?_ bound
    exact fun token rest split name => named ⟨token, rest, split, name⟩

theorem condition_step (bound : 16 * feed.length ≤ measure + 9) :
    Meets Descent.condition feed ConditionJudged := by
  rw [condition_eq]
  refine Meets.pass ?_ ?_
  · intro token rest split _
    have shorter : rest.length + 1 = feed.length := by rw [split]; rfl
    refine Meets.bind (judging.expression rest (by omega)) ?_ ?_
    · rintro expected spelling sign ⟨⟨node, more, derives, written⟩, _⟩
      refine ⟨node, _, more ++ [.symbol ")"], derives, by simp, ?_⟩
      exact List.forall_mem_append.mpr ⟨written, by decide⟩
    · intro node tokens tail _ derives
      refine Meets.pass ?_ ?_
      · intro _ _ _ _
        exact Meets.pure ⟨_, derives, rfl⟩
      · intro _ _
        exact ⟨node, _, [.symbol ")"], derives, by simp, by decide⟩
  · intro _ _
    exact ⟨_, [.numeral "0"], _, derives_zero, rfl, by decide⟩

theorem closed_step (wrap : Node → Node) (front : List Word)
    (build : ∀ node inside, Derives (.expression node) inside →
      Derives (.statement false (wrap node)) (front ++ (inside ++ [.symbol ";"])))
    (bound : 16 * feed.length + 7 ≤ measure) :
    Meets (Descent.expression >>= fun node => Descent.pass ";" >>= fun _ => Pure.pure (wrap node))
      feed
      fun verdict spelling sign => StatementJudged .statement verdict (front ++ spelling) sign := by
  refine Meets.bind (judging.expression feed bound) ?_ ?_
  · intro expected spelling sign refused
    refine ⟨false, refused.1.wrap front [.symbol ";"] (by decide) ?_⟩
    exact fun node inside derives => ⟨_, build node inside derives⟩
  · intro node tokens tail _ derives
    refine Meets.pass ?_ ?_
    · intro _ _ _ _
      exact Meets.pure ⟨false, build node _ derives, by simp⟩
    · intro _ _
      refine ⟨false, wrap node, [.symbol ";"], ?_, by decide⟩
      simpa using build node _ derives

/-- A condition and what comes behind it. Words before a refusal in the condition are completed by
the rest of the condition and the shortest block. -/
theorem guarded_step (keyword : Word) (dangling : Bool) {next : Node → Descent Node}
    (build : ∀ node test, Derives (.expression node) test →
      ∃ whole, Derives (.statement dangling whole)
        (keyword :: .symbol "(" :: test ++ .symbol ")" :: [.numeral "0", .symbol ";"]))
    (later : ∀ node test tail, Derives (.expression node) test → tail.length < feed.length →
      Meets (next node) tail fun verdict spelling sign =>
        StatementJudged .statement verdict
          (keyword :: .symbol "(" :: test ++ .symbol ")" :: spelling) sign)
    (bound : 16 * feed.length ≤ measure) :
    Meets (Descent.condition >>= next) feed fun verdict spelling sign =>
      StatementJudged .statement verdict (keyword :: spelling) sign := by
  apply Meets.bind (judging.condition_step feed (by omega))
  · rintro expected spelling sign ⟨node, test, more, derives, spelled, written⟩
    obtain ⟨whole, built⟩ := build node test derives
    refine ⟨dangling, whole, more ++ [.numeral "0", .symbol ";"], ?_, ?_⟩
    · rw [← List.append_assoc, List.cons_append, spelled]
      simpa using built
    · exact List.forall_mem_append.mpr ⟨written, by decide⟩
  · rintro node tokens tail split ⟨test, derives, spelled⟩
    have shorter : tail.length < feed.length := by
      rw [split]
      exact Feed.length_lt_prepend spelled tail
    rw [spelled]
    simpa using later node test tail derives shorter

theorem loop_step (bound : 16 * feed.length ≤ measure) :
    Meets (do
        let test ← Descent.condition
        let body ← Descent.block
        return Node.whileLoop test body) feed
      fun verdict spelling sign =>
        StatementJudged .statement verdict (.keyword "while" :: spelling) sign := by
  apply judging.guarded_step feed (.keyword "while") false
  · intro node test derives
    exact ⟨_, .whileLoop derives derives_blank⟩
  · intro node test tail derives shorter
    apply Meets.bind (judging.block tail (by omega))
    · rintro expected spelling sign ⟨dangling, viable⟩
      refine ⟨dangling, ?_⟩
      have inner :=
        viable.wrap (.keyword "while" :: .symbol "(" :: test ++ [.symbol ")"]) [] (by simp)
        (fun body inside second => ⟨_, by simpa using Derives.whileLoop derives second⟩)
      simpa using inner
    · rintro body others behind _ ⟨dangling, second, attached⟩
      refine Meets.pure ⟨dangling, ?_, attached⟩
      simpa using Derives.whileLoop derives second
  · exact bound

theorem branch_step (bound : 16 * feed.length ≤ measure) :
    Meets (do
        let test ← Descent.condition
        let positive ← Descent.block
        match ← Descent.accept (Word.only (.keyword "else")) with
        | some _ => return Node.ifElse test positive (← Descent.block)
        | none => return Node.ifThen test positive) feed
      fun verdict spelling sign =>
        StatementJudged .statement verdict (.keyword "if" :: spelling) sign := by
  apply judging.guarded_step feed (.keyword "if") true _ _ bound
  · intro node test derives
    exact ⟨_, .ifThen derives derives_blank⟩
  intro node test tail derives shorter
  refine Meets.bind (judging.block tail (by omega)) ?_ ?_
  · rintro expected spelling sign ⟨dangling, viable⟩
    refine ⟨true, ?_⟩
    have inner := viable.wrap (.keyword "if" :: .symbol "(" :: test ++ [.symbol ")"]) [] (by simp)
      (fun body inside second => ⟨_, by simpa using Derives.ifThen derives second⟩)
    simpa using inner
  rintro positive others behind split ⟨dangling, body, attached⟩
  have whole : Derives (.statement true (.ifThen node positive))
      (.keyword "if" :: .symbol "(" :: test ++ .symbol ")" :: words others) := .ifThen derives body
  refine Meets.accept ?_ ?_ ?_
  · intro token rest _ splitElse selected
    have nearer : rest.length + 1 ≤ tail.length := by
      rw [split, splitElse, Feed.length_prepend]
      simp only [Feed.length]
      omega
    have stands := Word.eq_of_only selected
    -- The `else` has been left for this `if`, so the first block does not dangle.
    have closed : dangling = false := by
      cases dangling with
      | false => rfl
      | true => exact absurd (by rw [splitElse, Feed.sign, stands]) (attached rfl)
    subst closed
    rw [stands]
    refine Meets.bind (judging.block rest (by omega)) ?_ ?_
    · rintro expected spelling sign ⟨dangling, viable⟩
      refine ⟨dangling, ?_⟩
      have inner := viable.wrap
        (.keyword "if" :: .symbol "(" :: test ++ .symbol ")" :: words others ++ [.keyword "else"])
        [] (by simp)
        (fun negative inside second => ⟨_, by simpa using Derives.ifElse derives body second⟩)
      simpa using inner
    · rintro negative last ending _ ⟨dangling, second, attached⟩
      refine Meets.pure ⟨dangling, ?_, attached⟩
      simpa using Derives.ifElse derives body second
  · intro absent
    refine Meets.pure ⟨true, ?_, fun _ stands => ?_⟩
    · simpa using whole
    · have selected := absent _ stands
      rw [Word.only_self] at selected
      cases selected
  · intro cause fault
    exact ⟨true, _, [], by simpa using whole, by simp⟩

theorem statement_step (bound : 16 * feed.length + 8 ≤ measure + 1) :
    Meets Descent.statement feed (StatementJudged .statement) := by
  have start : Viable (.statement false) [] :=
    ⟨_, [.numeral "0", .symbol ";"], .evaluate derives_zero, by decide⟩
  rw [statement_eq]
  refine Meets.accept ?_ ?_ ?_
  · intro token rest opening split selected
    have shorter : rest.length + 1 = feed.length := by rw [split]; rfl
    rw [Word.eq_of_opening selected]
    cases opening with
    | print =>
      exact judging.closed_step rest .print [.keyword "print"]
        (fun node inside derives => .print derives) (by omega)
    | branch => exact judging.branch_step rest (by omega)
    | loop => exact judging.loop_step rest (by omega)
  · intro _
    have evaluated := judging.closed_step feed id [] (fun node inside derives => .evaluate derives)
      (by omega)
    refine Meets.look ?_ ?_ ?_
    · intro word _
      split
      · exact Meets.refuse ⟨false, start⟩
      · exact evaluated
    · intro _
      exact evaluated
    · intro _ _
      exact ⟨false, start⟩
  · intro _ _
    exact ⟨false, start⟩

theorem block_step (bound : 16 * feed.length + 9 ≤ measure + 1) :
    Meets Descent.block feed (StatementJudged .block) := by
  rw [block_eq]
  refine Meets.accept ?_ ?_ ?_
  · intro token rest _ split selected
    have shorter : rest.length + 1 = feed.length := by rw [split]; rfl
    rw [Word.eq_of_only selected]
    refine Meets.bind (judging.statements rest (by omega)) ?_ ?_
    · rintro expected spelling sign ⟨nodes, more, derives, written⟩
      refine ⟨false, .ofStatements nodes, more ++ [.symbol "\x7d"], ?_, ?_⟩
      · simpa using Derives.braces derives (joined_of_statements nodes)
      · exact List.forall_mem_append.mpr ⟨written, by decide⟩
    · rintro nodes tokens tail _ ⟨derives, _⟩
      refine Meets.pass ?_ ?_
      · intro _ _ _ _
        refine Meets.pure ⟨false, ?_, by simp⟩
        simpa using Derives.braces derives (joined_of_statements nodes)
      · intro _ _
        refine ⟨false, .ofStatements nodes, [.symbol "\x7d"], ?_, by decide⟩
        simpa using Derives.braces derives (joined_of_statements nodes)
  · intro _
    refine (judging.statement feed (by omega)).mono ?_
    rintro (expected | node) spelling sign judged
    · obtain ⟨dangling, viable⟩ := judged
      refine ⟨dangling, viable.wrap [] [] (by simp) ?_⟩
      exact fun node inside derives => ⟨node, by simpa using Derives.plain derives⟩
    · obtain ⟨dangling, derives, attached⟩ := judged
      exact ⟨dangling, .plain derives, attached⟩
  · intro _ _
    exact ⟨false, _, [.numeral "0", .symbol ";"], derives_blank, by decide⟩

theorem statements_step (bound : 16 * feed.length + 9 ≤ measure + 1) :
    Meets Descent.statements feed StatementsJudged := by
  rw [statements_eq]
  refine Meets.look ?_ ?_ ?_
  · intro word stands
    dsimp only
    split
    · rename_i closing
      exact Meets.pure ⟨.none, .inr (by rw [stands, closing])⟩
    · refine Meets.bind (judging.statement feed (by omega)) ?_ ?_
      · rintro expected spelling sign ⟨dangling, node, more, derives, written⟩
        exact ⟨[node], more, by simpa using Derives.more derives .none, written⟩
      · rintro first tokens tail splitLater ⟨dangling, derives, _⟩
        have shorter : tail.length < feed.length := by
          obtain ⟨word, rest, spelled, _⟩ := derives.opens (by simp)
          rw [splitLater]
          exact Feed.length_lt_prepend spelled tail
        refine Meets.bind (judging.statements tail (by omega)) ?_ ?_
        · rintro expected spelling sign ⟨nodes, more, later, written⟩
          exact ⟨first :: nodes, more, by simpa using Derives.more derives later, written⟩
        · rintro rest others behind _ ⟨later, stops⟩
          refine Meets.pure ⟨?_, stops⟩
          simpa using Derives.more derives later
  · intro finish
    exact Meets.pure ⟨.none, .inl finish⟩
  · intro _ _
    exact ⟨[], [], .none, by simp⟩

end Judging

theorem judging (measure : Nat) : Judging measure := by
  induction measure with
  | zero => constructor <;> intros <;> omega
  | succ measure induction =>
    exact ⟨induction.statements_step, induction.block_step, induction.statement_step,
      induction.expression_step, fun level feed => induction.binary_step feed level,
      induction.unary_step, induction.factor_step⟩

/-- Reading a list of statements ends at its end, or at words that can be completed to one, and no
word behind the end has a part in it. -/
theorem statements_meet (feed : Feed) : Meets statements feed StatementsJudged :=
  (judging _).statements feed (Nat.le_refl _)

/-- A list of statements that was read is spelled by the tokens passed and has looked at a sign that
stops it. -/
theorem derives_of_statements {feed tail : Feed} {nodes : List Node}
    (read : statements feed = .ok (nodes, tail)) :
    ∃ tokens, feed = .prepend tokens tail ∧ Derives (.statements nodes) (words tokens) ∧
      tail.sign.Stops := by
  obtain ⟨verdict, tokens, last, split, judged, stable⟩ := statements_meet feed
  have same := stable tokens last rfl rfl
  rw [← split, read] at same
  cases verdict with
  | error expected => cases same
  | ok value =>
    cases same
    exact ⟨tokens, split, judged⟩

end Descent

end WhileLang
