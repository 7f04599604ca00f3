import WhileLang.Proofs.Dependence

/-!
# What an execution leaves alone

Running a tree assigns to no name but the targets in it, takes no variable away, and prints behind
the lines that are there. This holds of every tree, also of one with statements where values are
needed, and at every point of an execution, also of one that never ends. Evaluating alone prints
nothing at all.
-/

namespace WhileLang

set_option autoImplicit false

namespace Machine

variable {root : Node} {start last : Machine} {trace : List Event}

/-- Between the two machines nothing has changed that the tree may not change. -/
structure Frames (root : Node) (start last : Machine) : Prop where
  /-- Reading a name that was never stored does not store it either. -/
  untouched : ∀ name, name ∉ root.targets → last.store.get? name = start.store.get? name
  present : ∀ name, (start.store.get? name).isSome = true → (last.store.get? name).isSome = true
  appended : start.output <+: last.output

theorem Adds.frames (adds : start.Adds trace last) (source : ∀ event ∈ trace, event.From root) :
    Frames root start last where
  untouched _ free := adds.frame source free
  present name stored := by
    rw [adds.stored, Option.isSome_or, stored, Bool.or_true]
  appended := by
    rw [adds.output]
    exact List.prefix_append _ _

theorem InStep.frames {other otherLast : Machine} (moved : InStep root start other last otherLast) :
    Frames root start last := by
  obtain ⟨trace, source, adds, _⟩ := moved
  exact adds.frames source

theorem output_note_ignored (machine : Machine) (statement : Node) :
    (machine.note (.ignored statement)).output = machine.output := by
  simp [output, printed, note]

theorem output_assign (machine : Machine) (name : String) (value : Float) :
    (machine.assign name value).output = machine.output := by
  simp [output, printed, assign]

open Node in
/-- A print in the place of a value is not run, so no evaluation prints. -/
theorem output_eval (node : Node) (machine : Machine) :
    (machine.eval node).2.output = machine.output := by
  induction node using tree_induction generalizing machine with
  | block statements _ => exact output_note_ignored machine _
  | ifThen condition positive _ _ => exact output_note_ignored machine _
  | ifElse condition positive negative _ _ _ => exact output_note_ignored machine _
  | whileLoop condition body _ _ => exact output_note_ignored machine _
  | print expression _ => exact output_note_ignored machine _
  | assign name expression induction => exact (output_assign _ _ _).trans (induction machine)
  | binary op left right first second =>
    have both : ((machine.eval left).2.eval right).2.output = machine.output :=
      (second _).trans (first machine)
    cases op with
    | logical op =>
      rw [eval]
      dsimp only
      split
      · exact first machine
      · exact both
    | comparison op => exact both
    | arithmetic op => exact both
    | term op => exact both
  | unary op operand induction => exact induction machine
  | reference name => rfl
  | literal value => rfl

/-- Running a tree changes the values of its targets and adds lines behind the others, and nothing
else. As long as the execution has not ended this holds too. Evaluating it adds no line. -/
theorem execution_frame (tree : Node) (start : Machine) :
    (∀ last, Ends tree start last → Frames tree start last) ∧
      (∀ budget, Frames tree start (progress budget tree start).1) ∧
      (start.eval tree).2.output = start.output := by
  have same : Agree tree start start := fun _ _ => rfl
  refine ⟨?_, ?_, output_eval tree start⟩
  · intro last ends
    obtain ⟨_, _, moved⟩ := ends.in_step same
    exact moved.frames
  · intro budget
    exact (progress_abreast budget .top same).moved.frames

/-- The loop `while (!(x || q)) x = 1 + ...;`, with a print of an assignment to `z` as the second
summand, reads `q` and leaves it absent, keeps `y` and the line printed before. -/
theorem execution_frame_loop :
    ∃ last,
      Ends (.whileLoop (.unary .not (.binary (.logical .or) (.reference "x") (.reference "q")))
          (.assign "x" (.binary (.arithmetic .add) (.literal 1)
            (.print (.assign "z" (.literal 2))))))
        ⟨.setAll .empty [("y", 3)], [.printed 7]⟩ last ∧
        last.store.get? "q" = none ∧
        (last.store.get? "y").map Float.toBits = some (3 : Float).toBits ∧
        [printNumber 7] <+: last.output := by
  have ends :
      Ends (.whileLoop (.unary .not (.binary (.logical .or) (.reference "x") (.reference "q")))
          (.assign "x" (.binary (.arithmetic .add) (.literal 1)
            (.print (.assign "z" (.literal 2))))))
        ⟨.setAll .empty [("y", 3)], [.printed 7]⟩ _ := ⟨3, rfl⟩
  obtain ⟨frames, _⟩ := execution_frame
    (.whileLoop (.unary .not (.binary (.logical .or) (.reference "x") (.reference "q")))
      (.assign "x" (.binary (.arithmetic .add) (.literal 1) (.print (.assign "z" (.literal 2))))))
    ⟨.setAll .empty [("y", 3)], [.printed 7]⟩
  have frame := frames _ ends
  refine ⟨_, ends, ?_, ?_, frame.appended⟩
  · rw [frame.untouched "q" (by decide)]
    decide
  · rw [frame.untouched "y" (by decide)]
    decide

end Machine

end WhileLang
