import WhileLang.Node
import WhileLang.Store

/-!
# Execution

A machine is a store and a record of what happened: values printed, variables assigned, blocks
entered. Evaluating an expression always ends. Running a statement may not, so `run` takes a budget,
of which every statement and every round of a loop spends one; it answers `none` when the budget is
too small.
-/

namespace WhileLang

set_option autoImplicit false

inductive Event where
  | printed (value : Float)
  | assigned (name : String) (value : Float)
  /-- A block of this many statements starts. -/
  | entered (count : Nat)
  /-- A statement stands where a value is needed. It is not run and counts as zero. -/
  | ignored (statement : Node)

structure Machine where
  store : Store
  /-- What happened so far, the latest first. -/
  events : List Event

namespace Machine

def note (machine : Machine) (event : Event) : Machine :=
  { machine with events := event :: machine.events }

def assign (machine : Machine) (name : String) (value : Float) : Machine :=
  ⟨machine.store.set name value, .assigned name value :: machine.events⟩

/-- The value of an expression and the machine after it. An assignment yields zero. The right
operand of a logical operator is evaluated only if the left one does not settle the result. -/
def eval (machine : Machine) : Node → Float × Machine
  | .assign name expression =>
    let result := machine.eval expression
    (0, result.2.assign name result.1)
  | .binary (.logical op) left right =>
    let first := machine.eval left
    let truth := isTrue first.1
    if op.isSettledBy truth then (ofTruth truth, first.2)
    else
      let second := first.2.eval right
      (ofTruth (isTrue second.1), second.2)
  | .binary (.comparison op) left right =>
    let first := machine.eval left
    let second := first.2.eval right
    (ofTruth (op.apply first.1 second.1), second.2)
  | .binary (.arithmetic op) left right =>
    let first := machine.eval left
    let second := first.2.eval right
    (op.apply first.1 second.1, second.2)
  | .binary (.term op) left right =>
    let first := machine.eval left
    let second := first.2.eval right
    (op.apply first.1 second.1, second.2)
  | .unary op operand =>
    let result := machine.eval operand
    (op.apply result.1, result.2)
  | .reference name => (machine.store.read name, machine)
  | .literal value => (value, machine)
  | statement => (0, machine.note (.ignored statement))

/-- Runs a node as a statement. An expression is evaluated for its assignments. -/
def run : Nat → Node → Machine → Option Machine
  | 0, _, _ => none
  | budget + 1, .block statements, machine =>
    statements.foldlM (fun machine statement => run budget statement machine)
      (machine.note (.entered statements.length))
  | budget + 1, .ifThen condition positive, machine =>
    let test := machine.eval condition
    if isTrue test.1 then run budget positive test.2 else some test.2
  | budget + 1, .ifElse condition positive negative, machine =>
    let test := machine.eval condition
    if isTrue test.1 then run budget positive test.2 else run budget negative test.2
  | budget + 1, .whileLoop condition body, machine =>
    let test := machine.eval condition
    if isTrue test.1 then
      match run budget body test.2 with
      | some machine => run budget (.whileLoop condition body) machine
      | none => none
    else some test.2
  | _ + 1, .print expression, machine =>
    let result := machine.eval expression
    some (result.2.note (.printed result.1))
  | _ + 1, expression, machine => some (machine.eval expression).2

def printed (machine : Machine) : List Float :=
  machine.events.reverse.filterMap fun
    | .printed value => some value
    | _ => none

def output (machine : Machine) : List String :=
  machine.printed.map printNumber

end Machine

end WhileLang
