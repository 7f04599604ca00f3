import WhileLang.Proofs.Equivalence
import WhileLang.Proofs.Image
import WhileLang.Proofs.Rewriting

/-!
# Normal forms mean the same

Every rule that brings a tree nearer to its normal form leaves it alike, so the normal form can be
seen to do what the tree does. The rules need the role in which a node stands: to be run and to be
evaluated are two things, and a block of one expression, which does the same as the expression, has
another value. No rule applies to a tree that was read from a source.
-/

namespace WhileLang

set_option autoImplicit false

open Node (Role Context Rewrites Reaches Normal Fits)

namespace Machine

variable {role : Role} {node other child next : Node}

theorem SameValue.of_statements (statement : node.isStatement = true)
    (otherStatement : other.isStatement = true) :
    SameValue node other := by
  intro machine
  have first := of_statement statement machine
  have second := of_statement otherStatement machine
  exact ⟨first.1.trans second.1.symm, first.2.trans second.2.symm⟩

/-- Only a child that is evaluated itself matters to the value of a node. -/
theorem SameValue.plug (context : Context) (same : context.role = .value → SameValue child next) :
    SameValue (context.plug child) (context.plug next) := by
  cases context with
  | assigned name => exact (same rfl).assign name
  | leftOperand op right => exact (same rfl).binary op (.refl right)
  | rightOperand op left => exact (SameValue.refl left).binary op (same rfl)
  | operand op => exact (same rfl).unary op
  | _ => exact .of_statements rfl rfl

theorem Alike.plug (context : Context) (same : context.role = .value → SameValue child next)
    (alike : context.role ≠ .value → Alike [child] [next]) :
    Alike [context.plug child] [context.plug next] := by
  cases context with
  | element front back =>
    have inner : Alike ([child] ++ back) ([next] ++ back) :=
      (alike (by simp [Context.role])).append (.refl back)
    exact .of_blocks ((Alike.refl front).append inner)
  | ifThenCondition positive => exact (same rfl).if_then (.refl [positive])
  | ifThenPositive condition =>
    exact (SameValue.refl condition).if_then (alike (by simp [Context.role]))
  | ifElseCondition positive negative =>
    exact (same rfl).if_else (.refl [positive]) (.refl [negative])
  | ifElsePositive condition negative =>
    exact (SameValue.refl condition).if_else (alike (by simp [Context.role])) (.refl [negative])
  | ifElseNegative condition positive =>
    exact (SameValue.refl condition).if_else (.refl [positive]) (alike (by simp [Context.role]))
  | loopCondition body => exact (same rfl).loop (.refl [body])
  | loopBody condition => exact (SameValue.refl condition).loop (alike (by simp [Context.role]))
  | printed => exact (same rfl).print
  | assigned name => exact (SameValue.plug (.assigned name) same).alike rfl rfl
  | leftOperand op right => exact (SameValue.plug (.leftOperand op right) same).alike rfl rfl
  | rightOperand op left => exact (SameValue.plug (.rightOperand op left) same).alike rfl rfl
  | operand op => exact (SameValue.plug (.operand op) same).alike rfl rfl

theorem Alike.splice (front inner back : List Node) :
    Alike [.block (front ++ .block inner :: back)] [.block (front ++ inner ++ back)] := by
  have opened : Alike ([.block inner] ++ back) (inner ++ back) :=
    (Alike.block inner).append (.refl back)
  rw [List.append_assoc]
  exact .of_blocks ((Alike.refl front).append opened)

/-- One rule leaves a node the same value where it is evaluated, and leaves it alike where it is
run. -/
theorem rewrites_same (step : Rewrites role node next) :
    (role = .value → SameValue node next) ∧ (role ≠ .value → Alike [node] [next]) := by
  induction step with
  | zero statement => exact ⟨fun _ => .of_statement statement, fun placed => absurd rfl placed⟩
  | splice front inner back =>
    exact ⟨fun _ => .of_statements rfl rfl, fun _ => .splice front inner back⟩
  | single placed statement => exact ⟨fun value => absurd value placed, fun _ => .block [statement]⟩
  | within context inner induction =>
    exact ⟨fun _ => .plug context induction.1, fun _ => .plug context induction.1 induction.2⟩

theorem reaches_alike (reaches : Reaches .branch node next) : Alike [node] [next] := by
  induction reaches with
  | refl => exact .refl [node]
  | tail _ step induction => exact induction.trans ((rewrites_same step).2 (by simp))

end Machine

theorem Node.Fits.normal {role : Role} {node : Node} (fits : Fits role node) :
    Normal role node := by
  induction node using Node.child_induction generalizing role with
  | step root below =>
    refine Node.normal_iff.mpr ⟨?_, ?_, ?_⟩
    · rintro rfl
      exact fits.not_statement
    · rintro statements rfl
      cases fits with
      | block plural elements =>
        exact ⟨plural, fun statement member => (elements statement member).not_block⟩
    · intro entry listed
      exact below entry listed (fits.descend listed)

namespace Machine

/-- Rewriting a tree until no rule applies always ends, and always in its normal form. Run from any
machine, the tree and its normal form both end and show the same variables and lines, or neither of
them ends. The tree of a source is its own normal form. -/
theorem normal_form_runs_alike (tree : Node) :
    (WellFounded fun next node => Rewrites .branch node next) ∧
      (∀ form, tree.RewritesTo form ↔ form = tree.normalise) ∧
      (∀ start,
        (∃ last other, Ends tree start last ∧ Ends tree.normalise start other ∧
          other.seen = last.seen) ∨
          (∀ last, ¬Ends tree start last) ∧ ∀ other, ¬Ends tree.normalise start other) ∧
      ∀ source, parse source = .ok tree → tree.normalise = tree := by
  refine ⟨Node.rewrites_well_founded .branch, fun form => Node.rewrites_to_iff, ?_, ?_⟩
  · intro start
    have alike := reaches_alike (Node.rewrites_to_iff.mpr (rfl : tree.normalise = _)).1
    simp only [Alike, results_single_iff] at alike
    by_cases ends : ∃ last, Ends tree start last
    · obtain ⟨last, ends⟩ := ends
      obtain ⟨other, otherEnds, same⟩ := (alike start last.seen).mp ⟨last, ends, rfl⟩
      exact .inl ⟨last, other, ends, otherEnds, same⟩
    · refine .inr ⟨not_exists.mp ends, fun other otherEnds => ?_⟩
      obtain ⟨last, lastEnds, _⟩ := (alike start other.seen).mpr ⟨other, otherEnds, rfl⟩
      exact ends ⟨last, lastEnds⟩
  · intro source accepted
    exact (Node.shaped_iff_fits.mp (shaped_of_parse accepted)).normal.normalise_eq

/-- The condition of the loop is a block, so that the loop is passed although `x` is true, and a
print of a block prints zero; the tree of a source stays as it is. -/
theorem normal_form_runs_alike_block :
    (∃ last other,
      Ends (.block
          [.whileLoop (.block [.reference "x"]) (.block [.block [.print (.reference "x")]]),
            .block [.print (.block [.reference "x"])]])
        ⟨.setAll .empty [("x", 3)], []⟩ last ∧
      Ends (.block [.whileLoop (.literal 0) (.print (.reference "x")), .print (.literal 0)])
        ⟨.setAll .empty [("x", 3)], []⟩ other ∧
      other.seen = last.seen) ∧
      parse "x;print y;" = .ok (.block [.reference "x", .print (.reference "y")]) ∧
      (Node.block [.reference "x", .print (.reference "y")]).normalise =
        .block [.reference "x", .print (.reference "y")] := by
  obtain ⟨_, _, runs, _⟩ := normal_form_runs_alike
    (.block [.whileLoop (.block [.reference "x"]) (.block [.block [.print (.reference "x")]]),
      .block [.print (.block [.reference "x"])]])
  have accepted :
      parse "x;print y;" = .ok (.block [.reference "x", .print (.reference "y")]) := by cbv
  obtain ⟨_, _, _, own⟩ := normal_form_runs_alike (.block [.reference "x", .print (.reference "y")])
  refine ⟨?_, accepted, own "x;print y;" accepted⟩
  rcases runs ⟨.setAll .empty [("x", 3)], []⟩ with both | ⟨never, _⟩
  · exact both
  · exact absurd ⟨5, rfl⟩ (never _)

end Machine

end WhileLang
