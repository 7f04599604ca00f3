import WhileLang.Machine
import WhileLang.Proofs.Shape

/-!
# Executions that end

A budget only bounds an execution: one that ends within some budget ends in the same machine within
every larger one. `Machine.Ends` leaves the budget out, and `Machine.EndsAll` is statements in turn.
An execution adds to the record and does not look at it, so what can be seen in the end
(`Machine.seen`), the variables and the lines printed, follows from what could be seen at the start.
-/

namespace WhileLang

set_option autoImplicit false

namespace Machine

variable {budget : Nat} {node : Node} {nodes : List Node} {start last : Machine}

theorem fold_of_step {step wider : Machine → Node → Option Machine}
    (implies : ∀ machine node last, step machine node = some last → wider machine node = some last)
    (ended : nodes.foldlM step start = some last) : nodes.foldlM wider start = some last := by
  induction nodes generalizing start with
  | nil => exact ended
  | cons first rest induction =>
    rw [List.foldlM_cons] at ended ⊢
    obtain ⟨middle, head, tail⟩ := Option.bind_eq_some_iff.mp ended
    exact Option.bind_eq_some_iff.mpr ⟨middle, implies _ _ _ head, induction tail⟩

theorem run_succ (ended : run budget node start = some last) :
    run (budget + 1) node start = some last := by
  induction budget generalizing node start last with
  | zero => cases ended
  | succ budget induction =>
    cases node with
    | block statements =>
      rw [run] at ended ⊢
      exact fold_of_step (fun _ _ _ => induction) ended
    | ifThen condition positive =>
      rw [run] at ended ⊢
      by_cases holds : isTrue (start.eval condition).1 = true
      · rw [if_pos holds] at ended ⊢
        exact induction ended
      · rwa [if_neg holds] at ended ⊢
    | ifElse condition positive negative =>
      rw [run] at ended ⊢
      by_cases holds : isTrue (start.eval condition).1 = true
      · rw [if_pos holds] at ended ⊢
        exact induction ended
      · rw [if_neg holds] at ended ⊢
        exact induction ended
    | whileLoop condition body =>
      rw [run] at ended ⊢
      by_cases holds : isTrue (start.eval condition).1 = true
      · rw [if_pos holds] at ended ⊢
        cases round : run budget body (start.eval condition).2 with
        | none =>
          rw [round] at ended
          cases ended
        | some middle =>
          rw [round] at ended
          rw [induction round]
          exact induction ended
      · rwa [if_neg holds] at ended ⊢
    | print expression => exact ended
    | assign name expression => exact ended
    | binary op left right => exact ended
    | unary op operand => exact ended
    | reference name => exact ended
    | literal value => exact ended

theorem run_mono {larger : Nat} (enough : budget ≤ larger)
    (ended : run budget node start = some last) :
    run larger node start = some last := by
  induction larger, enough using Nat.le_induction with
  | base => exact ended
  | succ larger _ induction => exact run_succ induction

/-- Running the node comes to an end, in `last`. -/
def Ends (node : Node) (start last : Machine) : Prop :=
  ∃ budget, run budget node start = some last

inductive EndsAll : List Node → Machine → Machine → Prop where
  | nil (machine : Machine) : EndsAll [] machine machine
  | cons {first : Node} {rest : List Node} {start middle last : Machine}
      (head : Ends first start middle)
      (tail : EndsAll rest middle last) : EndsAll (first :: rest) start last

theorem ends_all_append_iff {left right : List Node} :
    EndsAll (left ++ right) start last ↔
      ∃ middle, EndsAll left start middle ∧ EndsAll right middle last := by
  constructor
  · intro ends
    induction left generalizing start with
    | nil => exact ⟨start, .nil start, ends⟩
    | cons first left induction =>
      cases ends with
      | cons head tail =>
        obtain ⟨middle, before, behind⟩ := induction tail
        exact ⟨middle, .cons head before, behind⟩
  · rintro ⟨middle, before, behind⟩
    induction before with
    | nil machine => exact behind
    | cons head tail induction => exact .cons head (induction behind)

theorem ends_all_singleton_iff : EndsAll [node] start last ↔ Ends node start last := by
  constructor
  · intro ends
    cases ends with
    | cons head tail =>
      cases tail
      exact head
  · exact fun ends => .cons ends (.nil last)

theorem ends_all_iff_fold :
    EndsAll nodes start last ↔
      ∃ budget, nodes.foldlM (fun machine statement => run budget statement machine) start =
        some last := by
  constructor
  · intro ends
    induction ends with
    | nil machine => exact ⟨0, rfl⟩
    | cons head tail induction =>
      obtain ⟨first, headEnded⟩ := head
      obtain ⟨second, tailEnded⟩ := induction
      -- The fold has one budget for all the statements, and the larger of the two is enough.
      refine ⟨max first second, ?_⟩
      rw [List.foldlM_cons, run_mono (Nat.le_max_left first second) headEnded]
      exact fold_of_step (fun _ _ _ => run_mono (Nat.le_max_right first second)) tailEnded
  · rintro ⟨budget, ended⟩
    induction nodes generalizing start with
    | nil =>
      cases ended
      exact .nil last
    | cons first rest induction =>
      rw [List.foldlM_cons] at ended
      obtain ⟨middle, head, tail⟩ := Option.bind_eq_some_iff.mp ended
      exact .cons ⟨budget, head⟩ (induction tail)

def atop (machine : Machine) (past : List Event) : Machine :=
  { machine with events := machine.events ++ past }

open Node in
theorem eval_atop (node : Node) (machine : Machine) (past : List Event) :
    (machine.atop past).eval node = ((machine.eval node).1, (machine.eval node).2.atop past) := by
  induction node using tree_induction generalizing machine with
  | block statements _ => rfl
  | ifThen condition positive _ _ => rfl
  | ifElse condition positive negative _ _ _ => rfl
  | whileLoop condition body _ _ => rfl
  | print expression _ => rfl
  | assign name expression induction =>
    simp only [eval, induction]
    rfl
  | binary op left right first second =>
    cases op with
    | logical op =>
      simp only [eval, first, second]
      split <;> rfl
    | comparison op => simp only [eval, first, second]
    | arithmetic op => simp only [eval, first, second]
    | term op => simp only [eval, first, second]
  | unary op operand induction => simp only [eval, induction]
  | reference name => rfl
  | literal value => rfl

theorem fold_atop {step : Machine → Node → Option Machine} {past : List Event}
    (keeps : ∀ machine node, step (machine.atop past) node = (step machine node).map (atop · past))
    (nodes : List Node) (machine : Machine) :
    nodes.foldlM step (machine.atop past) = (nodes.foldlM step machine).map (atop · past) := by
  induction nodes generalizing machine with
  | nil => rfl
  | cons first rest induction =>
    rw [List.foldlM_cons, List.foldlM_cons, keeps]
    cases step machine first with
    | none => rfl
    | some middle => exact induction middle

theorem run_atop (budget : Nat) (node : Node) (machine : Machine) (past : List Event) :
    run budget node (machine.atop past) = (run budget node machine).map (atop · past) := by
  induction budget generalizing node machine with
  | zero => rfl
  | succ budget induction =>
    cases node with
    | block statements =>
      rw [run, run]
      exact fold_atop (fun machine node => induction node machine) statements (machine.note _)
    | ifThen condition positive =>
      rw [run, run, eval_atop]
      split
      · exact induction _ _
      · rfl
    | ifElse condition positive negative =>
      rw [run, run, eval_atop]
      split
      · exact induction _ _
      · exact induction _ _
    | whileLoop condition body =>
      rw [run, run, eval_atop]
      dsimp only
      split
      · rw [induction]
        cases run budget body (machine.eval condition).2 with
        | none => rfl
        | some middle => exact induction _ _
      · rfl
    | print expression =>
      rw [run, run, eval_atop]
      rfl
    | assign name expression => exact congrArg (some ·.2) (eval_atop _ machine past)
    | binary op left right => exact congrArg (some ·.2) (eval_atop _ machine past)
    | unary op operand => exact congrArg (some ·.2) (eval_atop _ machine past)
    | reference name => exact congrArg (some ·.2) (eval_atop _ machine past)
    | literal value => exact congrArg (some ·.2) (eval_atop _ machine past)

/-- The variables, and the lines printed so far. -/
def seen (machine : Machine) : Store × List String :=
  (machine.store, machine.output)

theorem output_atop (machine : Machine) (past : List Event) :
    (machine.atop past).output = (Machine.mk machine.store past).output ++ machine.output := by
  simp [output, printed, atop]

theorem seen_note_entered (machine : Machine) (count : Nat) :
    (machine.note (.entered count)).seen = machine.seen := by
  simp [seen, output, printed, note]

theorem Ends.of_seen {other : Machine} (ends : Ends node start last)
    (same : other.seen = start.seen) :
    ∃ otherLast, Ends node other otherLast ∧ otherLast.seen = last.seen := by
  obtain ⟨budget, ended⟩ := ends
  obtain ⟨store, events⟩ := start
  obtain ⟨otherStore, otherEvents⟩ := other
  obtain ⟨rfl, sameOutput⟩ := Prod.mk.inj same
  -- Both executions are one that starts without a record, with the two records behind what it adds.
  have added := run_atop budget node ⟨otherStore, []⟩ events
  rw [show run budget node (atop ⟨otherStore, []⟩ events) = some last from ended] at added
  obtain ⟨fresh, ran, rfl⟩ := Option.map_eq_some_iff.mp added.symm
  refine ⟨fresh.atop otherEvents, ⟨budget, ?_⟩, ?_⟩
  · exact (run_atop budget node ⟨otherStore, []⟩ otherEvents).trans (congrArg _ ran)
  · have outputs : (fresh.atop otherEvents).output = (fresh.atop events).output := by
      rw [output_atop, output_atop]
      exact congrArg (· ++ fresh.output) sameOutput
    exact Prod.ext rfl outputs

theorem EndsAll.of_seen {other : Machine} (ends : EndsAll nodes start last)
    (same : other.seen = start.seen) :
    ∃ otherLast, EndsAll nodes other otherLast ∧ otherLast.seen = last.seen := by
  induction ends generalizing other with
  | nil machine => exact ⟨other, .nil other, same⟩
  | cons head tail induction =>
    obtain ⟨middle, first, sameMiddle⟩ := head.of_seen same
    obtain ⟨otherLast, rest, sameLast⟩ := induction sameMiddle
    exact ⟨otherLast, .cons first rest, sameLast⟩

theorem ends_block_iff :
    Ends (.block nodes) start last ↔ EndsAll nodes (start.note (.entered nodes.length)) last := by
  rw [ends_all_iff_fold]
  constructor
  · rintro ⟨budget, ended⟩
    cases budget with
    | zero => cases ended
    | succ budget => exact ⟨budget, by rwa [run] at ended⟩
  · rintro ⟨budget, ended⟩
    exact ⟨budget + 1, by rwa [run]⟩

/-- A tree made of statements can be seen to do what they do in turn. -/
theorem ends_of_statements_iff {seen : Store × List String} :
    (∃ last, Ends (.ofStatements nodes) start last ∧ last.seen = seen) ↔
      ∃ last, EndsAll nodes start last ∧ last.seen = seen := by
  by_cases single : nodes.length = 1
  · obtain ⟨node, rfl⟩ := List.length_eq_one_iff.mp single
    simp only [ends_all_singleton_iff, Node.ofStatements]
  · rw [Node.of_statements_eq_block single]
    simp only [ends_block_iff]
    constructor
    · rintro ⟨last, ends, rfl⟩
      exact ends.of_seen (seen_note_entered start nodes.length).symm
    · rintro ⟨last, ends, rfl⟩
      exact ends.of_seen (seen_note_entered start nodes.length)

theorem ends_of_append_iff {left right : List Node} {seen : Store × List String} :
    (∃ last, Ends (.ofStatements (left ++ right)) start last ∧ last.seen = seen) ↔
      ∃ middle last, Ends (.ofStatements left) start middle ∧
        Ends (.ofStatements right) middle last ∧
        last.seen = seen := by
  simp only [ends_of_statements_iff, ends_all_append_iff]
  constructor
  · rintro ⟨last, ⟨middle, before, behind⟩, rfl⟩
    obtain ⟨middle, leftEnds, sameMiddle⟩ := ends_of_statements_iff.mpr ⟨middle, before, rfl⟩
    obtain ⟨last, rightEnds, sameLast⟩ := ends_of_statements_iff.mpr (behind.of_seen sameMiddle)
    exact ⟨middle, last, leftEnds, rightEnds, sameLast⟩
  · rintro ⟨middle, last, leftEnds, rightEnds, rfl⟩
    obtain ⟨other, before, sameMiddle⟩ := ends_of_statements_iff.mp ⟨middle, leftEnds, rfl⟩
    obtain ⟨middleLast, otherEnds, sameLast⟩ := rightEnds.of_seen sameMiddle
    obtain ⟨last, behind, final⟩ := ends_of_statements_iff.mp ⟨middleLast, otherEnds, sameLast⟩
    exact ⟨last, ⟨other, before, behind⟩, final⟩

end Machine

end WhileLang
