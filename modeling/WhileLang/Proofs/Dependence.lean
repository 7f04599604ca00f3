import WhileLang.Proofs.Encoding
import WhileLang.Proofs.Trace

/-!
# What an execution depends on

Two machines that give the same values to the variables of a tree cannot be told apart by running
it, and a variable that was never stored counts as zero there. Statements that leave each other's
names alone therefore do the same in either order.
-/

namespace WhileLang

set_option autoImplicit false

/-- No target of the tree occurs in the other one, neither as a variable nor as a target. -/
def Node.Spares (node other : Node) : Prop :=
  ∀ name ∈ node.targets, name ∉ other.reads ∧ name ∉ other.targets

instance (node other : Node) : Decidable (node.Spares other) :=
  inferInstanceAs (Decidable (∀ name ∈ node.targets, _))

namespace Machine

variable {root first second : Node} {start middle last other otherLast : Machine}
    {trace : List Event}

structure Untouched (name : String) (start last : Machine) : Prop where
  kept : last.store.get? name = start.store.get? name
  unassigned : ∃ trace, last.events = trace ++ start.events ∧ ∀ value, .assigned name value ∉ trace

theorem Adds.untouched {name : String} (adds : start.Adds trace last)
    (nothing : trace.findSome? (Event.leaves? name) = none) : Untouched name start last where
  kept := by rw [adds.stored, nothing, Option.none_or]
  unassigned := by
    refine ⟨trace, adds.record, fun value member => ?_⟩
    have absent := List.findSome?_eq_none_iff.mp nothing _ member
    simp [Event.leaves?] at absent

/-- Executions in step leave a name alone, or they leave the same value in it. -/
theorem InStep.untouched_or_stored (moved : InStep root start other last otherLast)
    (name : String) :
    (Untouched name start last ∧ Untouched name other otherLast) ∨
      ∃ value, last.store.get? name = some value ∧ otherLast.store.get? name = some value := by
  obtain ⟨trace, _, left, right⟩ := moved
  cases found : trace.findSome? (Event.leaves? name) with
  | none => exact .inl ⟨left.untouched found, right.untouched found⟩
  | some value =>
    right
    use value
    rw [left.stored, right.stored, found]
    exact ⟨rfl, rfl⟩

theorem InStep.lines (moved : InStep root start other last otherLast) :
    ∃ lines, last.output = start.output ++ lines ∧ otherLast.output = other.output ++ lines := by
  obtain ⟨trace, _, left, right⟩ := moved
  exact ⟨_, left.output, right.output⟩

/-- An execution depends on the values of the variables of its tree and on nothing else, and a
variable that was never stored has the value zero. What is printed is the same also as long as an
execution has not ended. -/
theorem execution_depends_on_reads (tree : Node) (start other : Machine)
    (agree : ∀ name ∈ tree.reads,
      (start.store.read name).toBits = (other.store.read name).toBits) :
    ((∃ last, Ends tree start last) ↔ ∃ last, Ends tree other last) ∧
      (∀ budget, ∃ lines, (progress budget tree start).1.output = start.output ++ lines ∧
        (progress budget tree other).1.output = other.output ++ lines) ∧
      ∀ last otherLast, Ends tree start last → Ends tree other otherLast →
        (∃ lines, last.output = start.output ++ lines ∧ otherLast.output = other.output ++ lines) ∧
          (∀ name ∈ tree.reads,
            (last.store.read name).toBits = (otherLast.store.read name).toBits) ∧
          ∀ name ∈ tree.targets,
            (Untouched name start last ∧ Untouched name other otherLast) ∨
              ∃ value, last.store.get? name = some value ∧
                otherLast.store.get? name = some value := by
  have same : Agree tree start other :=
    fun name member => Encoding.eq_of_to_bits (agree name member)
  have converse : Agree tree other start := fun name member => (same name member).symm
  refine ⟨⟨?_, ?_⟩, ?_, ?_⟩
  · rintro ⟨last, ends⟩
    obtain ⟨otherLast, otherEnds, _⟩ := ends.in_step same
    exact ⟨otherLast, otherEnds⟩
  · rintro ⟨last, ends⟩
    obtain ⟨otherLast, otherEnds, _⟩ := ends.in_step converse
    exact ⟨otherLast, otherEnds⟩
  · intro budget
    exact (progress_abreast budget .top same).moved.lines
  · intro last otherLast ends otherEnds
    obtain ⟨found, foundEnds, moved⟩ := ends.in_step same
    rw [foundEnds.unique otherEnds] at moved
    refine ⟨moved.lines, ?_, fun name _ => moved.untouched_or_stored name⟩
    intro name member
    exact congrArg Float.toBits (moved.agree same name member)

/-- The loop `while (!x) x = 1;` ends alike without any variables and with a zero stored under its
name. -/
theorem execution_depends_on_reads_unset :
    ∃ last otherLast,
      Ends (.whileLoop (.unary .not (.reference "x")) (.assign "x" (.literal 1)))
        ⟨.empty, []⟩ last ∧
        Ends (.whileLoop (.unary .not (.reference "x")) (.assign "x" (.literal 1)))
          ⟨.setAll .empty [("x", 0), ("y", 2)], []⟩ otherLast ∧
        (last.store.read "x").toBits = (otherLast.store.read "x").toBits := by
  obtain ⟨terminates, _, final⟩ := execution_depends_on_reads
    (.whileLoop (.unary .not (.reference "x")) (.assign "x" (.literal 1))) ⟨.empty, []⟩
    ⟨.setAll .empty [("x", 0), ("y", 2)], []⟩ (by decide)
  have ends : Ends (.whileLoop (.unary .not (.reference "x")) (.assign "x" (.literal 1)))
      ⟨.empty, []⟩ _ :=
    ⟨3, rfl⟩
  obtain ⟨otherLast, otherEnds⟩ := terminates.mp ⟨_, ends⟩
  exact ⟨_, otherLast, ends, otherEnds, (final _ _ ends otherEnds).2.1 "x" (by decide)⟩

theorem Adds.agree (adds : start.Adds trace last) (source : ∀ event ∈ trace, event.From first)
    (spares : first.Spares second) : Agree second start last := by
  intro name member
  unfold Store.read
  rw [adds.frame source fun targets => (spares name targets).1 member]

theorem Ends.adds (ends : Ends root start last) :
    ∃ trace, (∀ event ∈ trace, event.From root) ∧ start.Adds trace last := by
  have same : Agree root start start := fun _ _ => rfl
  obtain ⟨_, _, trace, source, adds, _⟩ := ends.in_step same
  exact ⟨trace, source, adds⟩

theorem output_eq_nil (source : ∀ event ∈ trace, event.From root) (quiet : root.prints = false) :
    (Machine.mk .empty trace).output = [] := by
  have nothing : (Machine.mk .empty trace).printed = [] := by
    apply List.filterMap_eq_nil_iff.mpr
    intro event member
    have origin := source event (List.mem_reverse.mp member)
    cases event with
    | printed value => exact absurd (quiet.symm.trans origin) Bool.false_ne_true
    | assigned name value => rfl
    | entered count => rfl
    | ignored statement => rfl
  rw [output, nothing, List.map_nil]

theorem Ends.swap (firstEnds : Ends first start middle) (secondEnds : Ends second middle last)
    (spares : first.Spares second) (spared : second.Spares first)
    (quiet : first.prints = false ∨ second.prints = false) :
    ∃ otherMiddle otherLast, Ends second start otherMiddle ∧ Ends first otherMiddle otherLast ∧
      (∀ name, otherLast.store.get? name = last.store.get? name) ∧
        otherLast.output = last.output := by
  obtain ⟨_, source, adds⟩ := firstEnds.adds
  have undisturbed : Agree second middle start :=
    fun name member => (adds.agree source spares name member).symm
  obtain ⟨otherMiddle, secondEnds, later, laterSource, late, early⟩ :=
    secondEnds.in_step undisturbed
  obtain ⟨otherLast, firstEnds, sooner, soonerSource, soon, behind⟩ :=
    firstEnds.in_step (early.agree laterSource spared)
  refine ⟨otherMiddle, otherLast, secondEnds, firstEnds, ?_, ?_⟩
  · -- At most one of the two adds an assignment to the name, so it does not matter which of them
    -- is later.
    intro name
    rw [behind.stored, early.stored, late.stored, soon.stored]
    by_cases targets : name ∈ first.targets
    · rw [Event.find_leaves_eq_none laterSource (spares name targets).2, Option.none_or,
        Option.none_or]
    · rw [Event.find_leaves_eq_none soonerSource targets, Option.none_or, Option.none_or]
  · rw [behind.output, early.output, late.output, soon.output]
    rcases quiet with silent | silent
    · rw [output_eq_nil soonerSource silent, List.append_nil, List.append_nil]
    · rw [output_eq_nil laterSource silent, List.append_nil, List.append_nil]

theorem ends_pair_iff :
    Ends (.block [first, second]) start last ↔
      ∃ middle, Ends first (start.note (.entered 2)) middle ∧ Ends second middle last := by
  rw [ends_block_iff]
  change EndsAll ([first] ++ [second]) (start.note (.entered 2)) last ↔ _
  simp only [ends_all_append_iff, ends_all_singleton_iff]

theorem Ends.swap_pair (ends : Ends (.block [first, second]) start last)
    (spares : first.Spares second)
    (spared : second.Spares first) (quiet : first.prints = false ∨ second.prints = false) :
    ∃ swapped, Ends (.block [second, first]) start swapped ∧
      (∀ name, swapped.store.get? name = last.store.get? name) ∧ swapped.output = last.output := by
  obtain ⟨middle, firstEnds, secondEnds⟩ := ends_pair_iff.mp ends
  obtain ⟨otherMiddle, swapped, early, behind, same⟩ :=
    firstEnds.swap secondEnds spares spared quiet
  exact ⟨swapped, ends_pair_iff.mpr ⟨otherMiddle, early, behind⟩, same⟩

/-- Two statements commute if neither assigns to a name of the other and not both of them print. -/
theorem independent_statements_commute (first second : Node) (start : Machine)
    (spares : first.Spares second) (spared : second.Spares first)
    (quiet : first.prints = false ∨ second.prints = false) :
    ((∃ last, Ends (.block [first, second]) start last) ↔
        ∃ last, Ends (.block [second, first]) start last) ∧
      ∀ last swapped, Ends (.block [first, second]) start last →
        Ends (.block [second, first]) start swapped →
          (∀ name, swapped.store.get? name = last.store.get? name) ∧
            swapped.output = last.output := by
  refine ⟨⟨?_, ?_⟩, ?_⟩
  · rintro ⟨last, ends⟩
    obtain ⟨swapped, swappedEnds, _⟩ := ends.swap_pair spares spared quiet
    exact ⟨swapped, swappedEnds⟩
  · rintro ⟨last, ends⟩
    obtain ⟨swapped, swappedEnds, _⟩ := ends.swap_pair spared spares quiet.symm
    exact ⟨swapped, swappedEnds⟩
  · intro last swapped ends swappedEnds
    obtain ⟨found, foundEnds, same⟩ := ends.swap_pair spares spared quiet
    rwa [foundEnds.unique swappedEnds] at same

/-- A loop on one variable and a print that assigns to another one. -/
theorem independent_statements_commute_loop :
    ∃ last swapped,
      Ends (.block [.whileLoop (.unary .not (.reference "x")) (.assign "x" (.literal 1)),
          .print (.assign "y" (.reference "z"))]) ⟨.empty, []⟩ last ∧
        Ends (.block [.print (.assign "y" (.reference "z")),
            .whileLoop (.unary .not (.reference "x")) (.assign "x" (.literal 1))])
          ⟨.empty, []⟩ swapped ∧
        (∀ name, swapped.store.get? name = last.store.get? name) ∧
          swapped.output = last.output := by
  obtain ⟨terminates, same⟩ := independent_statements_commute
    (.whileLoop (.unary .not (.reference "x")) (.assign "x" (.literal 1)))
    (.print (.assign "y" (.reference "z"))) ⟨.empty, []⟩
    (by decide) (by decide) (by decide)
  have ends : Ends (.block [.whileLoop (.unary .not (.reference "x")) (.assign "x" (.literal 1)),
      .print (.assign "y" (.reference "z"))]) ⟨.empty, []⟩ _ := ⟨4, rfl⟩
  obtain ⟨swapped, swappedEnds⟩ := terminates.mp ⟨_, ends⟩
  exact ⟨_, swapped, ends, swappedEnds, same _ _ ends swappedEnds⟩

end Machine

end WhileLang
