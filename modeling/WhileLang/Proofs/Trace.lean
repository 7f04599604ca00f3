import WhileLang.Proofs.Execution
import WhileLang.Proofs.Occurrence
import WhileLang.Proofs.Progress

/-!
# What an execution adds

An execution changes a machine in one way only. It adds events to the record, and behind it a
variable has the value that the latest assignment among them gave to it (`Machine.Adds`). The tree,
and the values of the names that stand in it as variables, settle which events these are. So two
executions of a tree from machines that agree on those names go in step, and they do so also if they
never end.
-/

namespace WhileLang

set_option autoImplicit false

theorem Store.get_set (store : Store) (name other : String) (value : Float) :
    (store.set name value).get? other = if name = other then some value else store.get? other := by
  unfold set get?
  rw [Std.TreeMap.getElem?_insert]
  simp only [Std.compare_eq_iff_eq]

namespace Event

def leaves? (name : String) : Event → Option Float
  | assigned target value => if target = name then some value else none
  | _ => none

/-- The tree has a node that such an event can come from. -/
def From (root : Node) : Event → Prop
  | assigned name _ => name ∈ root.targets
  | printed _ => root.prints = true
  | _ => True

theorem find_leaves_eq_none {root : Node} {trace : List Event} {name : String}
    (source : ∀ event ∈ trace, event.From root) (free : name ∉ root.targets) :
    trace.findSome? (leaves? name) = none := by
  apply List.findSome?_eq_none_iff.mpr
  intro event member
  cases event with
  | assigned target value =>
    apply if_neg
    intro same
    exact free (same ▸ source _ member)
  | printed value => rfl
  | entered count => rfl
  | ignored statement => rfl

end Event

namespace Machine

variable {root node : Node} {start middle last other otherMiddle otherLast : Machine}
  {trace more : List Event} {event : Event}

/-- The execution from `start` to `last` added these events, the latest first, and did nothing
else. -/
structure Adds (start : Machine) (trace : List Event) (last : Machine) : Prop where
  record : last.events = trace ++ start.events
  stored : ∀ name,
    last.store.get? name = (trace.findSome? (Event.leaves? name)).or (start.store.get? name)

namespace Adds

theorem refl (machine : Machine) : machine.Adds [] machine :=
  ⟨rfl, fun _ => rfl⟩

theorem trans (first : start.Adds trace middle) (second : middle.Adds more last) :
    start.Adds (more ++ trace) last where
  record := by rw [second.record, first.record, List.append_assoc]
  stored name := by rw [second.stored, first.stored, List.findSome?_append, Option.or_assoc]

theorem note (machine : Machine) (silent : ∀ name, event.leaves? name = none) :
    machine.Adds [event] (machine.note event) where
  record := rfl
  stored name := by
    rw [List.findSome?_singleton, silent, Option.none_or]
    rfl

theorem assign (machine : Machine) (name : String) (value : Float) :
    machine.Adds [.assigned name value] (machine.assign name value) where
  record := rfl
  stored target := by
    rw [List.findSome?_singleton, Machine.assign, Store.get_set, Event.leaves?]
    split
    · rfl
    · rfl

theorem output (adds : start.Adds trace last) :
    last.output = start.output ++ (Machine.mk .empty trace).output := by
  simp [Machine.output, printed, adds.record]

theorem frame (adds : start.Adds trace last) (source : ∀ event ∈ trace, event.From root)
    {name : String}
    (free : name ∉ root.targets) : last.store.get? name = start.store.get? name := by
  rw [adds.stored, Event.find_leaves_eq_none source free, Option.none_or]

end Adds

/-- The two machines have the same values for all that the tree reads. -/
def Agree (root : Node) (left right : Machine) : Prop :=
  ∀ name ∈ root.reads, left.store.read name = right.store.read name

/-- From `start` to `last` and from `other` to `otherLast`, the same events of the tree were
added. -/
def InStep (root : Node) (start other last otherLast : Machine) : Prop :=
  ∃ trace, (∀ event ∈ trace, event.From root) ∧ start.Adds trace last ∧ other.Adds trace otherLast

namespace InStep

theorem refl (root : Node) (start other : Machine) : InStep root start other start other :=
  ⟨[], by simp, .refl start, .refl other⟩

theorem trans (first : InStep root start other middle otherMiddle)
    (second : InStep root middle otherMiddle last otherLast) :
    InStep root start other last otherLast := by
  obtain ⟨trace, source, left, right⟩ := first
  obtain ⟨more, laterSource, leftLater, rightLater⟩ := second
  exact ⟨more ++ trace, List.forall_mem_append.mpr ⟨laterSource, source⟩, left.trans leftLater,
    right.trans rightLater⟩

theorem note (event : Event) (source : event.From root) (silent : ∀ name, event.leaves? name = none)
    (start other : Machine) : InStep root start other (start.note event) (other.note event) :=
  ⟨[event], List.forall_mem_singleton.mpr source, .note start silent, .note other silent⟩

theorem assign {name : String} (target : name ∈ root.targets) (value : Float)
    (start other : Machine) :
    InStep root start other (start.assign name value) (other.assign name value) :=
  ⟨[.assigned name value], List.forall_mem_singleton.mpr target, .assign start name value,
    .assign other name value⟩

theorem read_eq {name : String} (moved : InStep root start other last otherLast)
    (same : start.store.read name = other.store.read name) :
    last.store.read name = otherLast.store.read name := by
  obtain ⟨trace, _, left, right⟩ := moved
  unfold Store.read at same ⊢
  rw [left.stored, right.stored]
  cases trace.findSome? (Event.leaves? name) with
  | none => exact same
  | some value => rfl

theorem agree (moved : InStep root start other last otherLast) (agree : Agree root start other) :
    Agree root last otherLast := by
  intro name member
  exact moved.read_eq (agree name member)

end InStep

open Node in
theorem eval_in_step (within : root.Within node) (agree : Agree root start other) :
    (start.eval node).1 = (other.eval node).1 ∧
      InStep root start other (start.eval node).2 (other.eval node).2 := by
  induction node using tree_induction generalizing start other with
  | block statements _ => exact ⟨rfl, .note (.ignored _) trivial (fun _ => rfl) start other⟩
  | ifThen condition positive _ _ =>
    exact ⟨rfl, .note (.ignored _) trivial (fun _ => rfl) start other⟩
  | ifElse condition positive negative _ _ _ =>
    exact ⟨rfl, .note (.ignored _) trivial (fun _ => rfl) start other⟩
  | whileLoop condition body _ _ =>
    exact ⟨rfl, .note (.ignored _) trivial (fun _ => rfl) start other⟩
  | print expression _ => exact ⟨rfl, .note (.ignored _) trivial (fun _ => rfl) start other⟩
  | assign name expression induction =>
    obtain ⟨same, moved⟩ := induction (within.descend (by simp [children])) agree
    simp only [eval, same]
    exact ⟨trivial, moved.trans (.assign (mem_targets_of_within within) _ _ _)⟩
  | binary op left right first second =>
    obtain ⟨sameLeft, movedLeft⟩ := first (within.descend (by simp [children])) agree
    obtain ⟨sameRight, movedRight⟩ :=
      second (within.descend (by simp [children])) (movedLeft.agree agree)
    have moved := movedLeft.trans movedRight
    cases op with
    | logical op =>
      -- Both left operands are the same, so they settle the result in both executions or in none.
      simp only [eval, sameLeft]
      split
      · exact ⟨rfl, movedLeft⟩
      · exact ⟨by rw [sameRight], moved⟩
    | comparison op => exact ⟨by simp only [eval, sameLeft, sameRight], moved⟩
    | arithmetic op => exact ⟨by simp only [eval, sameLeft, sameRight], moved⟩
    | term op => exact ⟨by simp only [eval, sameLeft, sameRight], moved⟩
  | unary op operand induction =>
    obtain ⟨same, moved⟩ := induction (within.descend (by simp [children])) agree
    exact ⟨by simp only [eval, same], moved⟩
  | reference name => exact ⟨agree name (mem_reads_of_within within), .refl root start other⟩
  | literal value => exact ⟨rfl, .refl root start other⟩

/-- The states were reached in step, and both of them or none has ended. -/
structure Abreast (root : Node) (start other : Machine) (state otherState : Machine × Bool) :
    Prop where
  ended : state.2 = otherState.2
  moved : InStep root start other state.1 otherState.1

theorem InStep.before {state otherState : Machine × Bool}
    (first : InStep root start other middle otherMiddle)
    (later : Abreast root middle otherMiddle state otherState) :
    Abreast root start other state otherState :=
  ⟨later.ended, first.trans later.moved⟩

theorem fold_abreast {step : Node → Machine → Machine × Bool} {state otherState : Machine × Bool}
    (statements : List Node)
    (each : ∀ statement ∈ statements, ∀ left right, Agree root left right →
      Abreast root left right (step statement left) (step statement right))
    (agree : Agree root start other) (abreast : Abreast root start other state otherState) :
    Abreast root start other
      (statements.foldl (fun state statement => if state.2 then step statement state.1 else state)
        state)
      (statements.foldl (fun state statement => if state.2 then step statement state.1 else state)
        otherState) := by
  induction statements generalizing state otherState with
  | nil => exact abreast
  | cons first rest induction =>
    obtain ⟨head, tail⟩ := List.forall_mem_cons.mp each
    rw [List.foldl_cons, List.foldl_cons]
    apply induction tail
    rw [abreast.ended]
    split
    · exact abreast.moved.before (head _ _ (abreast.moved.agree agree))
    · exact abreast

open Node in
theorem progress_abreast (budget : Nat) (within : root.Within node)
    (agree : Agree root start other) :
    Abreast root start other (progress budget node start) (progress budget node other) := by
  induction budget generalizing node start other with
  | zero => exact ⟨rfl, .refl root start other⟩
  | succ budget induction =>
    have finished : ∀ node, root.Within node →
        Abreast root start other ((start.eval node).2, true) ((other.eval node).2, true) :=
      fun node within => ⟨rfl, (eval_in_step within agree).2⟩
    cases node with
    | block statements =>
      rw [progress, progress]
      apply fold_abreast statements _ agree
      · exact ⟨rfl, .note (.entered statements.length) trivial (fun _ => rfl) start other⟩
      · intro statement member left right agree
        exact induction (within.descend (by simp [children, member])) agree
    | ifThen condition positive =>
      have test : root.Within condition := within.descend (by simp [children])
      obtain ⟨same, tested⟩ := eval_in_step test agree
      rw [progress, progress, same]
      split
      · exact tested.before (induction (within.descend (by simp [children])) (tested.agree agree))
      · exact ⟨rfl, tested⟩
    | ifElse condition positive negative =>
      have test : root.Within condition := within.descend (by simp [children])
      obtain ⟨same, tested⟩ := eval_in_step test agree
      rw [progress, progress, same]
      split
      · exact tested.before (induction (within.descend (by simp [children])) (tested.agree agree))
      · exact tested.before (induction (within.descend (by simp [children])) (tested.agree agree))
    | whileLoop condition body =>
      have test : root.Within condition := within.descend (by simp [children])
      have inner : root.Within body := within.descend (by simp [children])
      obtain ⟨same, tested⟩ := eval_in_step test agree
      have round := tested.before (induction inner (tested.agree agree))
      rw [progress, progress]
      dsimp only
      rw [same, round.ended]
      split
      · split
        · exact round.moved.before (induction within (round.moved.agree agree))
        · exact round
      · exact ⟨rfl, tested⟩
    | print expression =>
      have inner : root.Within expression := within.descend (by simp [children])
      obtain ⟨same, moved⟩ := eval_in_step inner agree
      rw [progress, progress, same]
      exact ⟨rfl, moved.trans (.note (.printed _) (prints_of_within within) (fun _ => rfl) _ _)⟩
    | assign name expression => exact finished _ within
    | binary op left right => exact finished _ within
    | unary op operand => exact finished _ within
    | reference name => exact finished _ within
    | literal value => exact finished _ within

theorem ends_iff_progress :
    Ends node start last ↔ ∃ budget, progress budget node start = (last, true) := by
  unfold Ends
  simp only [run_eq_progress, conclusion]
  grind

theorem Ends.unique (ends : Ends node start last) (other : Ends node start otherLast) :
    last = otherLast := by
  obtain ⟨budget, ended⟩ := ends
  obtain ⟨otherBudget, otherEnded⟩ := other
  have first := run_mono (Nat.le_max_left budget otherBudget) ended
  have second := run_mono (Nat.le_max_right budget otherBudget) otherEnded
  exact Option.some.inj (first.symm.trans second)

theorem Ends.in_step (ends : Ends root start last) (agree : Agree root start other) :
    ∃ otherLast, Ends root other otherLast ∧ InStep root start other last otherLast := by
  obtain ⟨budget, ended⟩ := ends_iff_progress.mp ends
  have abreast := progress_abreast budget .top agree
  rw [ended] at abreast
  exact ⟨_, ends_iff_progress.mpr ⟨budget, Prod.ext rfl abreast.ended.symm⟩, abreast.moved⟩

end Machine

end WhileLang
