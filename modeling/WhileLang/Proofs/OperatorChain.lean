import WhileLang.Proofs.Recognition

/-!
# Chains of operators

Unary expressions with binary operators between them are read by four rules, one inside the other,
each of which takes up the next operator of its own level. What comes of it can be said without any
of the rules: a chain falls apart at the leftmost of its loosest operators, and so do the two parts
(`Chain.tree`).
-/

namespace WhileLang

set_option autoImplicit false

structure Atom where
  spelling : List Word
  tree : Node
  derives : Derives (.unary tree) spelling

namespace Atom

def name (text : String) : Atom :=
  ⟨[.name text], .reference text, .unsigned (.reference text)⟩

def signed (op : UnaryOp) (atom : Atom) : Atom :=
  ⟨.symbol op.symbol :: atom.spelling, .unary op atom.tree, .signed op atom.derives⟩

end Atom

/-- Unary expressions with operators between them, of any levels and in any order. -/
inductive Chain where
  | single (atom : Atom)
  | link (atom : Atom) (op : BinaryOp) (rest : Chain)

namespace Chain

def spelling : Chain → List Word
  | single atom => atom.spelling
  | link atom op rest => atom.spelling ++ .symbol op.symbol :: rest.spelling

def operators : Chain → List BinaryOp
  | single _ => []
  | link _ op rest => op :: rest.operators

def first : Chain → Atom
  | single atom => atom
  | link atom _ _ => atom

/-- The leftmost operator of the level, with what stands on its left and on its right. -/
def splitAt? (level : Level) : Chain → Option (Chain × BinaryOp × Chain)
  | single _ => none
  | link atom op rest =>
    if op.level = level then some (.single atom, op, rest)
    else (rest.splitAt? level).map fun split => (.link atom op split.1, split.2)

/-- The chain split at the leftmost operator of the loosest level in it. -/
def split? (chain : Chain) : Option (Chain × BinaryOp × Chain) :=
  [Level.logical, .comparison, .arithmetic, .term].findSome? chain.splitAt?

variable {chain left right : Chain} {level : Level} {op : BinaryOp}

theorem operators_of_split_at (found : chain.splitAt? level = some (left, op, right)) :
    op.level = level ∧ chain.operators = left.operators ++ op :: right.operators ∧
      ∀ other ∈ left.operators, other.level ≠ level := by
  induction chain generalizing left with
  | single atom => cases found
  | link atom other rest induction =>
    unfold splitAt? at found
    split at found
    · rename_i same
      cases found
      exact ⟨same, rfl, by simp [operators]⟩
    · rename_i differs
      obtain ⟨⟨inner, _⟩, deeper, same⟩ := Option.map_eq_some_iff.mp found
      cases same
      obtain ⟨placed, all, apart⟩ := induction deeper
      refine ⟨placed, ?_, ?_⟩
      · rw [operators, operators, all, List.cons_append]
      · exact List.forall_mem_cons.mpr ⟨differs, apart⟩

theorem split_at_eq_none_iff :
    chain.splitAt? level = none ↔ ∀ other ∈ chain.operators, other.level ≠ level := by
  induction chain with
  | single atom => simp [splitAt?, operators]
  | link atom op rest induction =>
    unfold splitAt? operators
    rw [List.forall_mem_cons]
    split
    · rename_i same
      simp [same]
    · rename_i differs
      rw [Option.map_eq_none_iff, induction]
      simp [differs]

theorem split_at_of_split (found : chain.split? = some (left, op, right)) :
    chain.splitAt? op.level = some (left, op, right) := by
  obtain ⟨level, _, split⟩ := List.exists_of_findSome?_eq_some found
  rwa [(operators_of_split_at split).1]

theorem split_shortens (found : chain.split? = some (left, op, right)) :
    left.operators.length < chain.operators.length ∧
      right.operators.length < chain.operators.length := by
  have all := (operators_of_split_at (split_at_of_split found)).2.1
  rw [all, List.length_append, List.length_cons]
  omega

/-- A single operand is its own tree. A longer chain is split at the leftmost of its loosest
operators, and that operator joins the trees of the two sides. -/
def tree (chain : Chain) : Node :=
  match found : chain.split? with
  | none => chain.first.tree
  | some (left, op, right) =>
    have := split_shortens found
    .binary op left.tree right.tree
termination_by chain.operators.length

theorem tree_of_split (found : chain.split? = some (left, op, right)) :
    chain.tree = .binary op left.tree right.tree := by
  rw [tree]
  split
  · rename_i nothing
    rw [found] at nothing
    cases nothing
  · rename_i other
    rw [found] at other
    cases other
    rfl

theorem tree_single (atom : Atom) : (single atom).tree = atom.tree := by
  rw [tree]
  rfl

theorem eq_single (alone : chain.operators = []) : chain = .single chain.first := by
  cases chain with
  | single atom => rfl
  | link atom op rest => cases alone

theorem spelling_of_split_at (found : chain.splitAt? level = some (left, op, right)) :
    chain.spelling = left.spelling ++ .symbol op.symbol :: right.spelling := by
  induction chain generalizing left with
  | single atom => cases found
  | link atom other rest induction =>
    unfold splitAt? at found
    split at found
    · cases found
      rfl
    · obtain ⟨⟨inner, _⟩, deeper, same⟩ := Option.map_eq_some_iff.mp found
      cases same
      rw [spelling, spelling, induction deeper, List.append_assoc, List.cons_append]

end Chain

namespace Level

theorem rank_le_logical (level : Level) : level.rank ≤ logical.rank := by
  cases level <;> decide

theorem rank_injective {level other : Level} (same : level.rank = other.rank) : level = other := by
  cases level <;> cases other <;> first | rfl | cases same

theorem rank_of_tightest {level : Level} (tightest : level.tighter? = none) : level.rank = 0 := by
  cases level <;> first | rfl | cases tightest

end Level

namespace Chain

variable {chain left right : Chain} {level : Level} {op : BinaryOp}

theorem split_of_split_at (bound : ∀ other ∈ chain.operators, other.level.rank ≤ level.rank)
    (found : chain.splitAt? level = some (left, op, right)) :
    chain.split? = some (left, op, right) := by
  have looser : ∀ other : Level, level.rank < other.rank → chain.splitAt? other = none := by
    intro other above
    apply split_at_eq_none_iff.mpr
    intro found member same
    have below := bound found member
    rw [same] at below
    omega
  unfold split?
  cases level with
  | logical => rw [List.findSome?_cons, found]
  | comparison => simp [looser .logical (by decide), found]
  | arithmetic => simp [looser .logical (by decide), looser .comparison (by decide), found]
  | term =>
    simp [looser .logical (by decide), looser .comparison (by decide),
      looser .arithmetic (by decide), found]

theorem strict_of_absent {operators : List BinaryOp}
    (bound : ∀ other ∈ operators, other.level.rank ≤ level.rank)
    (absent : ∀ other ∈ operators, other.level ≠ level) :
    ∀ other ∈ operators, other.level.rank < level.rank := by
  intro other member
  apply Nat.lt_of_le_of_ne (bound other member)
  exact fun same => absent other member (Level.rank_injective same)

theorem derives_operand (strict : ∀ other ∈ chain.operators, other.level.rank < level.rank)
    (deeper : ∀ tighter, level.tighter? = some tighter →
      (∀ other ∈ chain.operators, other.level.rank ≤ tighter.rank) →
      Derives (.binary tighter chain.tree) chain.spelling) :
    Derives (.operand level chain.tree) chain.spelling := by
  unfold Phrase.operand
  cases found : level.tighter? with
  | some tighter =>
    apply deeper tighter found
    intro other member
    have below := strict other member
    have rank := Level.rank_tighter found
    omega
  | none =>
    -- Below the tightest level there are no operators, so the chain is one unary expression.
    have alone : chain.operators = [] := by
      apply List.eq_nil_iff_forall_not_mem.mpr
      intro other member
      have below := strict other member
      rw [Level.rank_of_tightest found] at below
      omega
    rw [eq_single alone, tree_single]
    exact chain.first.derives

/-- The rule of a level reads every chain without looser operators, and yields its tree. -/
theorem derives_binary (level : Level) (chain : Chain)
    (bound : ∀ other ∈ chain.operators, other.level.rank ≤ level.rank) :
    Derives (.binary level chain.tree) chain.spelling := by
  cases found : chain.splitAt? level with
  | none =>
    apply Derives.single
    apply derives_operand (strict_of_absent bound (split_at_eq_none_iff.mp found))
    intro tighter next within
    have rank := Level.rank_tighter next
    exact derives_binary tighter chain within
  | some split =>
    obtain ⟨left, op, right⟩ := split
    have whole := split_of_split_at bound found
    have shorter := split_shortens whole
    obtain ⟨rfl, all, absent⟩ := operators_of_split_at found
    rw [all, List.forall_mem_append, List.forall_mem_cons] at bound
    obtain ⟨boundLeft, _, boundRight⟩ := bound
    rw [tree_of_split whole, spelling_of_split_at found]
    apply Derives.apply op
    · apply derives_operand (strict_of_absent boundLeft absent)
      intro tighter _ within
      exact derives_binary tighter left within
    · exact derives_binary op.level right boundRight
termination_by (chain.operators.length, level.rank)

theorem derives_statement (chain : Chain) :
    Derives (.statement false chain.tree) (chain.spelling ++ [.symbol ";"]) := by
  apply Derives.evaluate
  apply Derives.value
  apply derives_binary
  intro op _
  exact op.level.rank_le_logical

/-- The parser turns a chain with a semicolon behind it into the tree of the chain, wherever it
reads a statement and also if the chain is all that the source holds. -/
theorem statement_splits_chain (chain : Chain) :
    (∀ budget (reader : Reader) tokens tail, reader.feed = .prepend tokens tail →
      words tokens = chain.spelling ++ [.symbol ";"] → (∀ fault, tail ≠ .fault fault) →
      16 * reader.feed.length + 8 ≤ budget →
        ∃ last : Reader, Parser.statement budget reader = .ok chain.tree last ∧ last.feed = tail) ∧
      ∀ source tokens last after, (Scanner.ofString source).Yields (tokens ++ [last]) after →
        last.kind = .endOfFile → words tokens = chain.spelling ++ [.symbol ";"] →
          parse source = .ok chain.tree := by
  constructor
  · intro budget reader tokens tail stands spelled sound enough
    have agrees := ((rules (Nat.le_refl budget)).rule .statement reader).agrees enough
    change Agrees (Parser.statement budget reader) (Descent.statement reader.feed) at agrees
    have read : Descent.statement reader.feed = .ok (chain.tree, tail) := by
      rw [stands]
      exact chain.derives_statement.read tokens tail spelled (by simp)
    rw [read] at agrees
    generalize Parser.statement budget reader = outcome at agrees
    cases agrees with
    | ok value last => exact ⟨last, rfl, rfl⟩
    | late value fault last => exact absurd rfl (sound fault)
  · intro source tokens last after yields finished spelled
    have spells : Spells (words tokens) chain.tree := by
      refine ⟨[chain.tree], ?_, .single _⟩
      rw [spelled, ← List.append_nil (chain.spelling ++ _)]
      exact .more chain.derives_statement .none
    exact (Program.mk yields (.inl finished) spells).accepted

/-- Of the two subtractions on the left of `<` the second one is done first, in a source and from a
cursor. -/
theorem statement_splits_chain_mixed :
    (∃ last, Parser.statement 200
        ⟨⟨"a-b-!c<d;".toList, ⟨1, 1, 2⟩, ⟨.identifier, some "a", 1, 1⟩, []⟩, []⟩ =
      .ok (.binary (.comparison .lt)
        (.binary (.arithmetic .sub) (.reference "a")
          (.binary (.arithmetic .sub) (.reference "b") (.unary .not (.reference "c"))))
        (.reference "d")) last) ∧
      parse "a-b-!c<d;" =
        .ok (.binary (.comparison .lt)
          (.binary (.arithmetic .sub) (.reference "a")
            (.binary (.arithmetic .sub) (.reference "b") (.unary .not (.reference "c"))))
          (.reference "d")) := by
  obtain ⟨statement, whole⟩ := statement_splits_chain
    (.link (.name "a") (.arithmetic .sub) (.link (.name "b") (.arithmetic .sub)
      (.link (.signed .not (.name "c")) (.comparison .lt) (.single (.name "d")))))
  have grouped : (link (.name "a") (.arithmetic .sub) (.link (.name "b") (.arithmetic .sub)
      (.link (.signed .not (.name "c")) (.comparison .lt) (.single (.name "d"))))).tree =
      .binary (.comparison .lt)
        (.binary (.arithmetic .sub) (.reference "a")
          (.binary (.arithmetic .sub) (.reference "b") (.unary .not (.reference "c"))))
        (.reference "d") := by
    cbv
  rw [grouped] at statement whole
  have yields : Scanner.Yields ⟨['-', 'b', '-', '!', 'c', '<', 'd', ';'], ⟨1, 1, 2⟩⟩
      [⟨.operator, some "-", 1, 2⟩, ⟨.identifier, some "b", 1, 3⟩, ⟨.operator, some "-", 1, 4⟩,
        ⟨.operator, some "!", 1, 5⟩, ⟨.identifier, some "c", 1, 6⟩, ⟨.operator, some "<", 1, 7⟩,
        ⟨.identifier, some "d", 1, 8⟩, ⟨.operator, some ";", 1, 9⟩] ⟨[], ⟨9, 1, 10⟩⟩ :=
    .more rfl
      (.more rfl (.more rfl (.more rfl (.more rfl (.more rfl (.more rfl (.more rfl (.done _))))))))
  have finished :
      (Scanner.mk [] ⟨9, 1, 10⟩).next = (.ok ⟨.endOfFile, none, 1, 10⟩, ⟨[], ⟨9, 1, 10⟩⟩) := rfl
  constructor
  · have stands := congrArg (Feed.token ⟨.identifier, some "a", 1, 1⟩) (yields.feed_eq (by decide))
    rw [Scanner.feed_of_finish finished rfl] at stands
    have enough := congrArg (16 * Feed.length · + 8) stands
    obtain ⟨last, read, _⟩ := statement 200
      ⟨⟨"a-b-!c<d;".toList, ⟨1, 1, 2⟩, ⟨.identifier, some "a", 1, 1⟩, []⟩, []⟩
      (⟨.identifier, some "a", 1, 1⟩ :: _) _ stands rfl (by simp)
      (Nat.le_trans (Nat.le_of_eq enough) (by decide))
    exact ⟨last, read⟩
  · have all := yields.append (.more finished (.done _))
    exact whole "a-b-!c<d;" (⟨.identifier, some "a", 1, 1⟩ :: _) _ _ (.more rfl all) rfl rfl

end Chain

end WhileLang
