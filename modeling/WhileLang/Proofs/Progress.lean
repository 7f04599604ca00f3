import WhileLang.Machine
import WhileLang.Proofs.Shape

/-!
# Executions that do not end

`Machine.run` keeps nothing of an execution that is cut short. `Machine.progress` is the same
execution with the machine it came to and whether it ended, so that what holds of it for every
budget holds of an execution that never ends as well. Running a tree of the right shape meets no
statement where a value is needed.
-/

namespace WhileLang

set_option autoImplicit false

namespace Machine

/-- The machine that a budget leads to, and whether the node was run to its end. -/
def progress : Nat → Node → Machine → Machine × Bool
  | 0, _, machine => (machine, false)
  | budget + 1, .block statements, machine =>
    statements.foldl
      (fun state statement => if state.2 then progress budget statement state.1 else state)
      (machine.note (.entered statements.length), true)
  | budget + 1, .ifThen condition positive, machine =>
    let test := machine.eval condition
    if isTrue test.1 then progress budget positive test.2 else (test.2, true)
  | budget + 1, .ifElse condition positive negative, machine =>
    let test := machine.eval condition
    if isTrue test.1 then progress budget positive test.2 else progress budget negative test.2
  | budget + 1, .whileLoop condition body, machine =>
    let test := machine.eval condition
    if isTrue test.1 then
      let round := progress budget body test.2
      if round.2 then progress budget (.whileLoop condition body) round.1 else round
    else (test.2, true)
  | _ + 1, .print expression, machine =>
    let result := machine.eval expression
    (result.2.note (.printed result.1), true)
  | _ + 1, expression, machine => ((machine.eval expression).2, true)

def conclusion (state : Machine × Bool) : Option Machine :=
  if state.2 then some state.1 else none

theorem conclusion_fold (step : Node → Machine → Machine × Bool) (statements : List Node)
    (state : Machine × Bool) :
    ((conclusion state).bind fun machine =>
        statements.foldlM (fun machine statement => conclusion (step statement machine)) machine) =
      conclusion (statements.foldl
        (fun state statement => if state.2 then step statement state.1 else state) state) := by
  induction statements generalizing state with
  | nil =>
    obtain ⟨machine, ended⟩ := state
    cases ended <;> rfl
  | cons first rest induction =>
    rw [List.foldl_cons, ← induction]
    obtain ⟨machine, ended⟩ := state
    cases ended <;> rfl

theorem run_eq_progress (budget : Nat) (node : Node) (machine : Machine) :
    run budget node machine = conclusion (progress budget node machine) := by
  induction budget generalizing node machine with
  | zero => rfl
  | succ budget induction =>
    cases node with
    | block statements =>
      rw [run, progress]
      simp only [induction]
      exact conclusion_fold (progress budget) statements (machine.note (.entered _), true)
    | ifThen condition positive =>
      rw [run, progress]
      split
      · exact induction _ _
      · rfl
    | ifElse condition positive negative =>
      rw [run, progress]
      split
      · exact induction _ _
      · exact induction _ _
    | whileLoop condition body =>
      rw [run, progress]
      dsimp only
      split
      · rw [induction body]
        cases ended : (progress budget body (machine.eval condition).2).2 with
        | true => simp [conclusion, ended, induction]
        | false => simp [conclusion, ended]
      · rfl
    | print expression => rfl
    | assign name expression => rfl
    | binary op left right => rfl
    | unary op operand => rfl
    | reference name => rfl
    | literal value => rfl

/-- The statements that were met where a value is needed, the latest first. -/
def ignored (machine : Machine) : List Node :=
  machine.events.filterMap fun
    | .ignored statement => some statement
    | _ => none

theorem ignored_assign (machine : Machine) (name : String) (value : Float) :
    (machine.assign name value).ignored = machine.ignored := rfl

open Node in
theorem ignored_eval {node : Node} (fits : Fits .value node) (machine : Machine) :
    (machine.eval node).2.ignored = machine.ignored := by
  induction node using tree_induction generalizing machine with
  | block statements _ => cases fits.not_statement
  | ifThen condition positive _ _ => cases fits.not_statement
  | ifElse condition positive negative _ _ _ => cases fits.not_statement
  | whileLoop condition body _ _ => cases fits.not_statement
  | print expression _ => cases fits.not_statement
  | assign name expression induction =>
    cases fits with
    | assign _ inner => exact (ignored_assign _ _ _).trans (induction inner machine)
  | binary op left right first second =>
    cases fits with
    | binary _ fitsLeft fitsRight =>
      have both : ((machine.eval left).2.eval right).2.ignored = machine.ignored :=
        (second fitsRight _).trans (first fitsLeft machine)
      cases op with
      | logical op =>
        rw [eval]
        dsimp only
        split
        · exact first fitsLeft machine
        · exact both
      | comparison op => exact both
      | arithmetic op => exact both
      | term op => exact both
  | unary op operand induction =>
    cases fits with
    | unary _ inner => exact induction inner machine
  | reference name => rfl
  | literal value => rfl

theorem ignored_fold {step : Node → Machine → Machine × Bool} (statements : List Node)
    (keeps : ∀ statement ∈ statements, ∀ machine,
      (step statement machine).1.ignored = machine.ignored)
    (state : Machine × Bool) :
    (statements.foldl (fun state statement => if state.2 then step statement state.1 else state)
      state).1.ignored = state.1.ignored := by
  induction statements generalizing state with
  | nil => rfl
  | cons first rest induction =>
    obtain ⟨head, tail⟩ := List.forall_mem_cons.mp keeps
    rw [List.foldl_cons, induction tail]
    split
    · exact head state.1
    · rfl

open Node in
/-- No execution of a tree that fits, ended or not, ignores a statement. -/
theorem ignored_progress (budget : Nat) {node : Node} {role : Role} (fits : Fits role node)
    (machine : Machine) : (progress budget node machine).1.ignored = machine.ignored := by
  induction budget generalizing node role machine with
  | zero => rfl
  | succ budget induction =>
    cases fits with
    | @block statements _ elements =>
      rw [progress]
      apply ignored_fold statements
      intro statement member state
      exact induction (elements statement member) state
    | ifThen _ test first =>
      rw [progress]
      split
      · rw [induction first, ignored_eval test]
      · exact ignored_eval test machine
    | ifElse _ test first second =>
      rw [progress]
      split
      · rw [induction first, ignored_eval test]
      · rw [induction second, ignored_eval test]
    | @whileLoop _ condition body placed test inner =>
      have round :
          (progress budget body (machine.eval condition).2).1.ignored = machine.ignored := by
        rw [induction inner, ignored_eval test]
      rw [progress]
      dsimp only
      split
      · split
        · rw [induction (.whileLoop placed test inner), round]
        · exact round
      · exact ignored_eval test machine
    | print _ inner => exact ignored_eval inner machine
    | assign named inner => exact ignored_eval (.assign named inner) machine
    | binary op first second => exact ignored_eval (.binary op first second) machine
    | unary op inner => exact ignored_eval (.unary op inner) machine
    | reference named => rfl
    | literal whole => rfl

end Machine

end WhileLang
