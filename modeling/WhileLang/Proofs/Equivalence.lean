import WhileLang.Proofs.Frame

/-!
# Trees that cannot be told apart

Two lists of statements are alike if running them from the same machine ends in both cases or in
none, and shows the same variables and the same lines in the end (`Machine.Alike`). Two expressions
are alike if they also have the same value (`Machine.SameValue`). Replacing a part of a tree by one
that is alike leaves the tree alike, whatever the part is: a branch, a statement among others, a
condition, or the body of a loop that is run any number of times.
-/

namespace WhileLang

set_option autoImplicit false

namespace Machine

variable {node other condition test first second : Node} {nodes others left right : List Node}
  {start last machine twin : Machine} {seen : Store × List String}

/-- Running the nodes in turn comes to an end, and then this can be seen. -/
def Results (nodes : List Node) (start : Machine) (seen : Store × List String) : Prop :=
  ∃ last, EndsAll nodes start last ∧ last.seen = seen

theorem results_congr (same : machine.seen = twin.seen) :
    Results nodes machine seen ↔ Results nodes twin seen := by
  constructor
  · rintro ⟨last, ends, rfl⟩
    exact ends.of_seen same.symm
  · rintro ⟨last, ends, rfl⟩
    exact ends.of_seen same

theorem results_append_iff :
    Results (left ++ right) start seen ↔
      ∃ middle, EndsAll left start middle ∧ Results right middle seen := by
  unfold Results
  simp only [ends_all_append_iff]
  constructor
  · rintro ⟨last, ⟨middle, before, behind⟩, shown⟩
    exact ⟨middle, before, last, behind, shown⟩
  · rintro ⟨middle, before, last, behind, shown⟩
    exact ⟨last, ⟨middle, before, behind⟩, shown⟩

theorem results_single_iff :
    Results [node] start seen ↔ ∃ last, Ends node start last ∧ last.seen = seen := by
  simp only [Results, ends_all_singleton_iff]

/-- Running the one list can be seen to do what running the other one does. -/
def Alike (nodes others : List Node) : Prop :=
  ∀ start seen, Results nodes start seen ↔ Results others start seen

namespace Alike

theorem refl (nodes : List Node) : Alike nodes nodes :=
  fun _ _ => Iff.rfl

theorem symm (alike : Alike nodes others) : Alike others nodes :=
  fun start seen => (alike start seen).symm

theorem trans {between : List Node} (first : Alike nodes between) (second : Alike between others) :
    Alike nodes others :=
  fun start seen => (first start seen).trans (second start seen)

theorem results_append (before : Alike left others) (behind : Alike right nodes)
    (ends : Results (left ++ right) start seen) : Results (others ++ nodes) start seen := by
  obtain ⟨middle, ends, later⟩ := results_append_iff.mp ends
  obtain ⟨reached, otherEnds, same⟩ := (before start middle.seen).mp ⟨middle, ends, rfl⟩
  exact results_append_iff.mpr ⟨reached, otherEnds,
    (results_congr same).mpr ((behind middle seen).mp later)⟩

theorem append (before : Alike left others) (behind : Alike right nodes) :
    Alike (left ++ right) (others ++ nodes) :=
  fun _ _ => ⟨before.results_append behind, before.symm.results_append behind.symm⟩

theorem block (nodes : List Node) : Alike [.block nodes] nodes := by
  intro start seen
  rw [results_single_iff]
  simp only [ends_block_iff]
  exact results_congr (seen_note_entered start nodes.length)

theorem of_blocks (alike : Alike nodes others) : Alike [.block nodes] [.block others] :=
  (block nodes).trans (alike.trans (block others).symm)

end Alike

theorem eval_of_seen (node : Node) (same : machine.seen = twin.seen) :
    (machine.eval node).1 = (twin.eval node).1 ∧
      (machine.eval node).2.seen = (twin.eval node).2.seen := by
  obtain ⟨store, events⟩ := machine
  obtain ⟨twinStore, twinEvents⟩ := twin
  obtain ⟨rfl, sameOutput⟩ := Prod.mk.inj same
  -- Both evaluations are one that starts without a record, and none of them prints.
  have fresh := eval_atop node ⟨store, []⟩
  have value := (congrArg Prod.fst (fresh events)).trans (congrArg Prod.fst (fresh twinEvents)).symm
  have stored :=
    (congrArg (·.2.store) (fresh events)).trans (congrArg (·.2.store) (fresh twinEvents)).symm
  refine ⟨value, Prod.ext stored ?_⟩
  exact (output_eval node _).trans (sameOutput.trans (output_eval node _).symm)

/-- The expressions have the same value, and evaluating them can be seen to do the same. -/
def SameValue (node other : Node) : Prop :=
  ∀ machine : Machine,
    (machine.eval node).1 = (machine.eval other).1 ∧
      (machine.eval node).2.seen = (machine.eval other).2.seen

namespace SameValue

theorem refl (node : Node) : SameValue node node :=
  fun _ => ⟨rfl, rfl⟩

theorem symm (same : SameValue node other) : SameValue other node :=
  fun machine => ⟨(same machine).1.symm, (same machine).2.symm⟩

theorem from_twin (same : SameValue node other) (seen : machine.seen = twin.seen) :
    (machine.eval node).1 = (twin.eval other).1 ∧
      (machine.eval node).2.seen = (twin.eval other).2.seen := by
  have first := same machine
  have second := eval_of_seen other seen
  exact ⟨first.1.trans second.1, first.2.trans second.2⟩

theorem assign (name : String) (same : SameValue node other) :
    SameValue (.assign name node) (.assign name other) := by
  intro machine
  obtain ⟨value, shown⟩ := same machine
  refine ⟨rfl, ?_⟩
  obtain ⟨stored, printed⟩ := Prod.mk.inj shown
  simp only [eval, seen, output_assign, value, printed]
  simp only [Machine.assign, stored]

theorem binary (op : BinaryOp) (same : SameValue node other) (sameRight : SameValue first second) :
    SameValue (.binary op node first) (.binary op other second) := by
  intro machine
  obtain ⟨value, shown⟩ := same machine
  obtain ⟨valueRight, shownRight⟩ := sameRight.from_twin shown
  cases op with
  | logical op =>
    simp only [eval, value]
    split
    · exact ⟨rfl, shown⟩
    · exact ⟨by rw [valueRight], shownRight⟩
  | comparison op => exact ⟨by simp only [eval, value, valueRight], shownRight⟩
  | arithmetic op => exact ⟨by simp only [eval, value, valueRight], shownRight⟩
  | term op => exact ⟨by simp only [eval, value, valueRight], shownRight⟩

theorem unary (op : UnaryOp) (same : SameValue node other) :
    SameValue (.unary op node) (.unary op other) := by
  intro machine
  obtain ⟨value, shown⟩ := same machine
  exact ⟨by simp only [eval, value], shown⟩

/-- A statement in the place of a value counts as zero and does nothing. -/
theorem of_statement (statement : node.isStatement = true) : SameValue node (.literal 0) := by
  intro machine
  have ignored : machine.eval node = (0, machine.note (.ignored node)) := by
    cases node <;> first | rfl | cases statement
  rw [ignored]
  exact ⟨rfl, Prod.ext rfl (output_note_ignored machine node)⟩

end SameValue

theorem ends_iff_of_step {result : Nat → Option Machine}
    (step : ∀ budget, run (budget + 1) node start = result budget) :
    Ends node start last ↔ ∃ budget, result budget = some last := by
  constructor
  · rintro ⟨budget, ended⟩
    cases budget with
    | zero => cases ended
    | succ budget => exact ⟨budget, (step budget).symm.trans ended⟩
  · rintro ⟨budget, ended⟩
    exact ⟨budget + 1, (step budget).trans ended⟩

theorem ends_expression_iff (expression : node.isStatement = false) :
    Ends node start last ↔ (start.eval node).2 = last := by
  have step : ∀ budget, run (budget + 1) node start = some (start.eval node).2 := by
    intro budget
    cases node <;> first | rfl | cases expression
  rw [ends_iff_of_step step, exists_const, Option.some.injEq]

theorem SameValue.alike (same : SameValue node other) (expression : node.isStatement = false)
    (otherExpression : other.isStatement = false) : Alike [node] [other] := by
  intro start seen
  simp only [results_single_iff, ends_expression_iff expression,
    ends_expression_iff otherExpression, exists_eq_left', (same start).2]

theorem ends_print_iff :
    Ends (.print node) start last ↔
      (start.eval node).2.note (.printed (start.eval node).1) = last := by
  have step : ∀ budget, run (budget + 1) (.print node) start =
      some ((start.eval node).2.note (.printed (start.eval node).1)) := fun _ => rfl
  rw [ends_iff_of_step step, exists_const, Option.some.injEq]

theorem seen_note_printed (machine : Machine) (value : Float) :
    (machine.note (.printed value)).seen =
      (machine.seen.1, machine.seen.2 ++ [printNumber value]) := by
  simp [seen, output, printed, note]

theorem SameValue.print (same : SameValue node other) : Alike [.print node] [.print other] := by
  intro start seen
  obtain ⟨value, shown⟩ := same start
  simp only [results_single_iff, ends_print_iff, exists_eq_left', seen_note_printed, value, shown]

theorem results_if_then_iff :
    Results [.ifThen condition node] start seen ↔
      if isTrue (start.eval condition).1 then Results [node] (start.eval condition).2 seen
      else (start.eval condition).2.seen = seen := by
  have step : ∀ budget, run (budget + 1) (.ifThen condition node) start =
      if isTrue (start.eval condition).1 then run budget node (start.eval condition).2
      else some (start.eval condition).2 := fun _ => rfl
  simp only [results_single_iff, ends_iff_of_step step]
  split
  · exact Iff.rfl
  · simp only [exists_const, Option.some.injEq, exists_eq_left']

theorem results_if_else_iff :
    Results [.ifElse condition node other] start seen ↔
      if isTrue (start.eval condition).1 then Results [node] (start.eval condition).2 seen
      else Results [other] (start.eval condition).2 seen := by
  have step : ∀ budget, run (budget + 1) (.ifElse condition node other) start =
      if isTrue (start.eval condition).1 then run budget node (start.eval condition).2
      else run budget other (start.eval condition).2 := fun _ => rfl
  simp only [results_single_iff, ends_iff_of_step step]
  split
  · exact Iff.rfl
  · exact Iff.rfl

theorem SameValue.if_then (same : SameValue condition test) (positive : Alike [first] [second]) :
    Alike [.ifThen condition first] [.ifThen test second] := by
  intro start seen
  obtain ⟨value, shown⟩ := same start
  rw [results_if_then_iff, results_if_then_iff, value, shown]
  split
  · exact (positive _ seen).trans (results_congr shown)
  · exact Iff.rfl

theorem SameValue.if_else (same : SameValue condition test) (positive : Alike [first] [second])
    (negative : Alike [node] [other]) :
    Alike [.ifElse condition first node] [.ifElse test second other] := by
  intro start seen
  obtain ⟨value, shown⟩ := same start
  rw [results_if_else_iff, results_if_else_iff, value]
  split
  · exact (positive _ seen).trans (results_congr shown)
  · exact (negative _ seen).trans (results_congr shown)

theorem Results.round {middle : Machine} (holds : isTrue (start.eval condition).1 = true)
    (body : EndsAll [node] (start.eval condition).2 middle)
    (later : Results [.whileLoop condition node] middle seen) :
    Results [.whileLoop condition node] start seen := by
  obtain ⟨first, ended⟩ := ends_all_singleton_iff.mp body
  obtain ⟨last, ends, shown⟩ := later
  obtain ⟨second, laterEnded⟩ := ends_all_singleton_iff.mp ends
  refine ⟨last, ends_all_singleton_iff.mpr ⟨max first second + 1, ?_⟩, shown⟩
  rw [run, if_pos holds, run_mono (Nat.le_max_left first second) ended]
  exact run_mono (Nat.le_max_right first second) laterEnded

theorem Results.done (fails : isTrue (start.eval condition).1 = false) :
    Results [.whileLoop condition node] start (start.eval condition).2.seen := by
  refine ⟨_, ends_all_singleton_iff.mpr ⟨1, ?_⟩, rfl⟩
  rw [run]
  rw [if_neg (by simp [fails])]

/-- The induction is on the budget of the first loop. Each of its rounds is a round of the second
one, which goes on from a machine that shows the same. -/
theorem SameValue.results_loop (same : SameValue condition test) (body : Alike [first] [second])
    {budget : Nat} (ended : run budget (.whileLoop condition first) start = some last) :
    Results [.whileLoop test second] start last.seen := by
  induction budget generalizing start with
  | zero => cases ended
  | succ budget induction =>
    obtain ⟨value, shown⟩ := same start
    rw [run] at ended
    cases holds : isTrue (start.eval condition).1 with
    | false =>
      rw [if_neg (by simp [holds])] at ended
      cases ended
      rw [shown]
      exact .done (by rw [← value, holds])
    | true =>
      rw [if_pos holds] at ended
      cases round : run budget first (start.eval condition).2 with
      | none =>
        rw [round] at ended
        cases ended
      | some middle =>
        rw [round] at ended
        have turn : Results [second] (start.eval test).2 middle.seen :=
          (results_congr shown).mp ((body _ _).mp ⟨middle,
            ends_all_singleton_iff.mpr ⟨budget, round⟩, rfl⟩)
        obtain ⟨reached, ends, sameMiddle⟩ := turn
        apply Results.round (by rw [← value, holds]) ends
        exact (results_congr sameMiddle).mpr (induction ended)

theorem SameValue.loop (same : SameValue condition test) (body : Alike [first] [second]) :
    Alike [.whileLoop condition first] [.whileLoop test second] := by
  intro start seen
  simp only [results_single_iff]
  constructor
  · rintro ⟨last, ⟨budget, ended⟩, rfl⟩
    exact results_single_iff.mp (same.results_loop body ended)
  · rintro ⟨last, ⟨budget, ended⟩, rfl⟩
    exact results_single_iff.mp (same.symm.results_loop body.symm ended)

end Machine

end WhileLang
