import WhileLang.Proofs.Descent

/-!
# What a rule decides, and from what

A rule ends in front of some tail of its feed, with a value or with what it expected there. `Meets`
says that this end depends only on the words passed and on the sign of the tail, and what holds of
them.
-/

namespace WhileLang

set_option autoImplicit false

namespace Descent

/-- A verdict that was reached in front of `tail`. -/
def conclude {α : Type} (verdict : Except Expected α) (tail : Feed) : Except Refusal (α × Feed) :=
  match verdict with
  | .ok value => .ok (value, tail)
  | .error expected => .error ⟨expected, tail⟩

/-- On this feed the rule passes words and ends at a sign of which `claim` holds, and it does the
same on every other feed with these words and this sign. -/
def Meets {α : Type} (rule : Descent α) (feed : Feed)
    (claim : Except Expected α → List Word → Sign → Prop) : Prop :=
  ∃ verdict tokens tail, feed = .prepend tokens tail ∧ claim verdict (words tokens) tail.sign ∧
    ∀ others last, words others = words tokens → last.sign = tail.sign →
      rule (.prepend others last) = conclude verdict last

namespace Meets

variable {α β : Type} {rule : Descent α} {feed : Feed}
  {claim : Except Expected α → List Word → Sign → Prop}

theorem mono {weaker : Except Expected α → List Word → Sign → Prop} (meets : Meets rule feed claim)
    (implies : ∀ verdict spelling sign, claim verdict spelling sign →
      weaker verdict spelling sign) :
    Meets rule feed weaker := by
  obtain ⟨verdict, tokens, tail, split, holds, stable⟩ := meets
  exact ⟨verdict, tokens, tail, split, implies _ _ _ holds, stable⟩

/-- The first sign alone decides which rule is followed. -/
theorem congr {other : Descent α} (meets : Meets other feed claim)
    (same : ∀ last : Feed, last.sign = feed.sign → rule last = other last) :
    Meets rule feed claim := by
  obtain ⟨verdict, tokens, tail, split, holds, stable⟩ := meets
  refine ⟨verdict, tokens, tail, split, holds, ?_⟩
  intro others last sameWords sameSign
  rw [← stable others last sameWords sameSign]
  apply same
  rw [split]
  exact Feed.sign_prepend_congr sameWords sameSign

theorem cons {token : Token} {rest : Feed} {next : Descent α}
    (meets : Meets next rest fun verdict spelling sign =>
      claim verdict (token.word :: spelling) sign)
    (same : ∀ (other : Token) (last : Feed), other.word = token.word → last.sign = rest.sign →
      rule (.token other last) = next last) :
    Meets rule (.token token rest) claim := by
  obtain ⟨verdict, tokens, tail, split, holds, stable⟩ := meets
  refine ⟨verdict, token :: tokens, tail, by rw [split]; rfl, holds, ?_⟩
  intro others last sameWords sameSign
  obtain ⟨other, behind, rfl, first, later⟩ := words_eq_cons sameWords
  rw [Feed.prepend_cons, same other _ first, stable behind last later sameSign]
  rw [split]
  exact Feed.sign_prepend_congr later sameSign

theorem pure {value : α} (holds : claim (.ok value) [] feed.sign) :
    Meets (Pure.pure value) feed claim := by
  refine ⟨.ok value, [], feed, rfl, holds, ?_⟩
  intro others last sameWords _
  rw [List.map_eq_nil_iff.mp sameWords]
  rfl

theorem refuse {expected : Expected} (holds : claim (.error expected) [] feed.sign) :
    Meets (Descent.refuse expected) feed claim := by
  refine ⟨.error expected, [], feed, rfl, holds, ?_⟩
  intro others last sameWords _
  rw [List.map_eq_nil_iff.mp sameWords]
  rfl

theorem bind {next : α → Descent β} {whole : Except Expected β → List Word → Sign → Prop}
    (meets : Meets rule feed claim)
    (refused : ∀ expected spelling sign, claim (.error expected) spelling sign →
      whole (.error expected) spelling sign)
    (later : ∀ value tokens tail, feed = .prepend tokens tail →
      claim (.ok value) (words tokens) tail.sign →
      Meets (next value) tail fun verdict spelling sign =>
        whole verdict (words tokens ++ spelling) sign) :
    Meets (rule >>= next) feed whole := by
  obtain ⟨verdict, tokens, tail, split, holds, stable⟩ := meets
  cases verdict with
  | error expected =>
    refine ⟨.error expected, tokens, tail, split, refused _ _ _ holds, ?_⟩
    intro others last sameWords sameSign
    change rule _ >>= _ = _
    rw [stable others last sameWords sameSign]
    rfl
  | ok value =>
    obtain ⟨verdict, passed, ending, splitLater, holdsLater, stableLater⟩ :=
      later value tokens tail split holds
    refine ⟨verdict, tokens ++ passed, ending, ?_, ?_, ?_⟩
    · rw [split, splitLater, Feed.prepend_append]
    · rw [words_append]
      exact holdsLater
    · intro others last sameWords sameSign
      rw [words_append] at sameWords
      obtain ⟨left, right, rfl, first, second⟩ := words_eq_append sameWords
      have middle : (Feed.prepend right last).sign = tail.sign := by
        rw [splitLater]
        exact Feed.sign_prepend_congr second sameSign
      rw [Feed.prepend_append]
      change rule _ >>= _ = _
      rw [stable left _ first middle]
      exact stableLater right last second sameSign

theorem broken {cause : Cause} (fault : feed.sign = .fault cause)
    (stops : ∀ found : Fault, rule (.fault found) = .error ⟨.operand, .fault found⟩)
    (holds : claim (.error .operand) [] feed.sign) : Meets rule feed claim := by
  refine (refuse holds).congr ?_
  intro last same
  rw [fault] at same
  cases last with
  | token token rest => cases same
  | finish token => cases same
  | fault found => exact stops found

section Selection

variable {whole : Except Expected β → List Word → Sign → Prop}

theorem accept {select : Word → Option α} {next : Option α → Descent β}
    (found : ∀ token rest value, feed = .token token rest → select token.word = some value →
      Meets (next (some value)) rest fun verdict spelling sign =>
        whole verdict (token.word :: spelling) sign)
    (nothing : (∀ word, feed.sign = .word word → select word = none) →
      Meets (next none) feed whole)
    (fault : ∀ cause, feed.sign = .fault cause → whole (.error .operand) [] feed.sign) :
    Meets (Descent.accept select >>= next) feed whole := by
  cases feed with
  | token token rest =>
    cases selected : select token.word with
    | some value =>
      refine cons (found token rest value rfl selected) ?_
      intro other last same _
      exact accept_bind_some last (by rw [same, selected])
    | none =>
      refine (nothing ?_).congr ?_
      · intro word same
        rwa [← Sign.word.inj same]
      · intro last same
        cases last with
        | token other behind => exact accept_bind_none behind (by rw [Sign.word.inj same, selected])
        | finish other => cases same
        | fault other => cases same
  | finish token =>
    refine (nothing (fun word same => by cases same)).congr ?_
    intro last same
    cases last with
    | token other behind => cases same
    | finish other => rfl
    | fault other => cases same
  | fault reason => exact broken rfl (fun _ => rfl) (fault reason.cause rfl)

theorem look {next : Option Word → Descent β}
    (word : ∀ word, feed.sign = .word word → Meets (next (some word)) feed whole)
    (finish : feed.sign = .finish → Meets (next none) feed whole)
    (fault : ∀ cause, feed.sign = .fault cause → whole (.error .operand) [] feed.sign) :
    Meets (Descent.look >>= next) feed whole := by
  cases feed with
  | token token rest =>
    refine (word token.word rfl).congr ?_
    intro last same
    cases last with
    | token other behind =>
      rw [look_bind_token, Sign.word.inj same]
    | finish other => cases same
    | fault other => cases same
  | finish token =>
    refine (finish rfl).congr ?_
    intro last same
    cases last with
    | token other behind => cases same
    | finish other => rfl
    | fault other => cases same
  | fault reason => exact broken rfl (fun _ => rfl) (fault reason.cause rfl)

theorem pass {symbol : String} {next : Unit → Descent β}
    (found : ∀ token rest, feed = .token token rest → token.word = .symbol symbol →
      Meets (next ()) rest fun verdict spelling sign =>
        whole verdict (.symbol symbol :: spelling) sign)
    (missing : ∀ expected, feed.sign ≠ .word (.symbol symbol) →
      whole (.error expected) [] feed.sign) :
    Meets (Descent.pass symbol >>= next) feed whole := by
  rw [pass_eq, bind_assoc]
  refine accept ?_ ?_ ?_
  · intro token rest _ split selected
    have stands := Word.eq_of_only selected
    rw [stands]
    exact found token rest split stands
  · intro absent
    refine refuse (missing _ fun stands => ?_)
    have selected := absent _ stands
    rw [Word.only_self] at selected
    cases selected
  · intro cause fault
    exact missing _ (by rw [fault]; simp)

end Selection

end Meets

end Descent

end WhileLang
