import WhileLang.Node.Json
import WhileLang.Proofs.Occurrence
import WhileLang.Proofs.UniqueDocument

/-!
# A tree is determined by its text

The tag of a node tells its form, and what stands under the tag its parts; of the two forms of a
branch only the one without an alternative has `null` in its place. So a tree can be read off its
document. With finite literals the document can be read off its text, compact or indented, and the
tree with it.
-/

namespace WhileLang

set_option autoImplicit false

namespace Json

theorem pair_inj {first second : String} {left right otherLeft otherRight : Json}
    (same : object [(first, left), (second, right)] =
      object [(first, otherLeft), (second, otherRight)]) :
    left = otherLeft ∧ right = otherRight := by
  simpa using same

theorem triple_inj {first second third : String}
    {left middle right otherLeft otherMiddle otherRight : Json}
    (same : object [(first, left), (second, middle), (third, right)] =
      object [(first, otherLeft), (second, otherMiddle), (third, otherRight)]) :
    left = otherLeft ∧ middle = otherMiddle ∧ right = otherRight := by
  simpa using same

end Json

theorem UnaryOp.name_injective {op other : UnaryOp} (same : op.name = other.name) : op = other := by
  revert same
  cases op <;> cases other <;> decide

theorem BinaryOp.name_injective {op other : BinaryOp} (level : op.level = other.level)
    (same : op.name = other.name) : op = other := by
  cases op <;> cases other <;> cases level
  all_goals
    rename_i op other
    revert same
    cases op <;> cases other <;> decide

namespace Node

/-- What the tag of a node tells about it. -/
inductive Form where
  | block
  | branch
  | loop
  | print
  | assignment
  | operation (level : Level)
  | unary
  | reference
  | literal

def Form.tag : Form → String
  | block => "CodeBlock"
  | branch => "If"
  | loop => "While"
  | print => "Print"
  | assignment => "Assignment"
  | operation level => level.tag
  | unary => "Unary"
  | reference => "Variable"
  | literal => "NumericLiteral"

def Form.ofTag? : String → Option Form
  | "CodeBlock" => some block
  | "If" => some branch
  | "While" => some loop
  | "Print" => some print
  | "Assignment" => some assignment
  | "LogicalExpr" => some (operation .logical)
  | "Comparison" => some (operation .comparison)
  | "Arithmetic" => some (operation .arithmetic)
  | "Term" => some (operation .term)
  | "Unary" => some unary
  | "Variable" => some reference
  | "NumericLiteral" => some literal
  | _ => none

theorem Form.of_tag (form : Form) : ofTag? form.tag = some form := by
  cases form with
  | operation level => cases level <;> rfl
  | _ => rfl

def form : Node → Form
  | .block _ => .block
  | .ifThen _ _ | .ifElse _ _ _ => .branch
  | .whileLoop _ _ => .loop
  | .print _ => .print
  | .assign _ _ => .assignment
  | .binary op _ _ => .operation op.level
  | .unary _ _ => .unary
  | .reference _ => .reference
  | .literal _ => .literal

def content : Node → Json
  | block statements => .array (statements.map toJson)
  | ifThen condition positive =>
    .object [("condition", condition.toJson), ("positive_block", positive.toJson),
      ("negative_block", .null)]
  | ifElse condition positive negative =>
    .object [("condition", condition.toJson), ("positive_block", positive.toJson),
      ("negative_block", negative.toJson)]
  | whileLoop condition body => .object [("condition", condition.toJson), ("body", body.toJson)]
  | print expression => expression.toJson
  | assign name expression =>
    .object [("variable_name", .string name), ("expression", expression.toJson)]
  | binary op left right =>
    .object [("op", .string op.name), ("left", left.toJson), ("right", right.toJson)]
  | unary op operand => .object [("op", .string op.name), ("operand", operand.toJson)]
  | reference name => .string name
  | literal value => .number value

theorem to_json_all_eq (statements : List Node) : toJsonAll statements = statements.map toJson := by
  induction statements with
  | nil => rfl
  | cons first rest induction => rw [toJsonAll, induction, List.map_cons]

theorem to_json_eq (node : Node) : node.toJson = .tagged node.form.tag node.content := by
  cases node with
  | block statements => rw [toJson, to_json_all_eq]; rfl
  | _ => rw [toJson]; rfl

theorem to_json_ne_null (node : Node) : node.toJson ≠ .null := by
  rw [to_json_eq]
  exact Json.noConfusion

theorem parts_eq_of_to_json_eq {node other : Node} (same : node.toJson = other.toJson) :
    node.form = other.form ∧ node.content = other.content := by
  rw [to_json_eq node, to_json_eq other, Json.tagged, Json.tagged] at same
  injection same with same
  injection same with same
  injection same with tag content
  have form := congrArg Form.ofTag? tag
  rw [Form.of_tag, Form.of_tag] at form
  exact ⟨Option.some.inj form, content⟩

theorem eq_of_map_to_json_eq {statements others : List Node}
    (each : ∀ statement ∈ statements, ∀ other : Node, statement.toJson = other.toJson →
      statement = other)
    (same : statements.map toJson = others.map toJson) : statements = others := by
  induction statements generalizing others with
  | nil => exact (List.map_eq_nil_iff.mp same.symm).symm
  | cons first rest induction =>
    cases others with
    | nil => cases same
    | cons other others =>
      obtain ⟨head, tail⟩ := List.forall_mem_cons.mp each
      obtain ⟨sameFirst, sameRest⟩ := List.cons.inj same
      rw [head other sameFirst, induction tail sameRest]

theorem eq_of_to_json_eq {node other : Node} (same : node.toJson = other.toJson) :
    node = other := by
  induction node using tree_induction generalizing other with
  | block statements induction =>
    obtain ⟨form, parts⟩ := parts_eq_of_to_json_eq same
    cases other with
    | block others =>
      rw [eq_of_map_to_json_eq (fun statement listed _ => induction statement listed)
        (Json.array.inj parts)]
    | _ => cases form
  | ifThen condition positive test first =>
    obtain ⟨form, parts⟩ := parts_eq_of_to_json_eq same
    cases other with
    | ifThen otherCondition otherPositive =>
      obtain ⟨sameTest, samePositive, -⟩ := Json.triple_inj parts
      rw [test sameTest, first samePositive]
    | ifElse otherCondition otherPositive otherNegative =>
      -- only a branch without an alternative has `null` in its place
      obtain ⟨-, -, sameNegative⟩ := Json.triple_inj parts
      exact absurd sameNegative.symm otherNegative.to_json_ne_null
    | _ => cases form
  | ifElse condition positive negative test first second =>
    obtain ⟨form, parts⟩ := parts_eq_of_to_json_eq same
    cases other with
    | ifThen otherCondition otherPositive =>
      obtain ⟨-, -, sameNegative⟩ := Json.triple_inj parts
      exact absurd sameNegative negative.to_json_ne_null
    | ifElse otherCondition otherPositive otherNegative =>
      obtain ⟨sameTest, samePositive, sameNegative⟩ := Json.triple_inj parts
      rw [test sameTest, first samePositive, second sameNegative]
    | _ => cases form
  | whileLoop condition body test inner =>
    obtain ⟨form, parts⟩ := parts_eq_of_to_json_eq same
    cases other with
    | whileLoop otherCondition otherBody =>
      obtain ⟨sameTest, sameBody⟩ := Json.pair_inj parts
      rw [test sameTest, inner sameBody]
    | _ => cases form
  | print expression inner =>
    obtain ⟨form, parts⟩ := parts_eq_of_to_json_eq same
    cases other with
    | print otherExpression => rw [inner parts]
    | _ => cases form
  | assign name expression inner =>
    obtain ⟨form, parts⟩ := parts_eq_of_to_json_eq same
    cases other with
    | assign otherName otherExpression =>
      obtain ⟨sameName, sameExpression⟩ := Json.pair_inj parts
      rw [Json.string.inj sameName, inner sameExpression]
    | _ => cases form
  | binary op left right first second =>
    obtain ⟨form, parts⟩ := parts_eq_of_to_json_eq same
    cases other with
    | binary otherOp otherLeft otherRight =>
      obtain ⟨sameName, sameLeft, sameRight⟩ := Json.triple_inj parts
      have sameOp := BinaryOp.name_injective (Form.operation.inj form) (Json.string.inj sameName)
      rw [sameOp, first sameLeft, second sameRight]
    | _ => cases form
  | unary op operand inner =>
    obtain ⟨form, parts⟩ := parts_eq_of_to_json_eq same
    cases other with
    | unary otherOp otherOperand =>
      obtain ⟨sameName, sameOperand⟩ := Json.pair_inj parts
      rw [UnaryOp.name_injective (Json.string.inj sameName), inner sameOperand]
    | _ => cases form
  | reference name =>
    obtain ⟨form, parts⟩ := parts_eq_of_to_json_eq same
    cases other with
    | reference otherName => rw [Json.string.inj parts]
    | _ => cases form
  | literal value =>
    obtain ⟨form, parts⟩ := parts_eq_of_to_json_eq same
    cases other with
    | literal otherValue => rw [Json.number.inj parts]
    | _ => cases form

theorem finite_content {root : Node} (below : ∀ entry ∈ root.children, entry.2.toJson.Finite)
    (own : ∀ value, root = .literal value → value.isFinite = true) : root.content.Finite := by
  cases root with
  | block statements => exact .array (by simpa [children] using below)
  | ifThen condition positive =>
    obtain ⟨test, first⟩ : condition.toJson.Finite ∧ positive.toJson.Finite := by
      simpa [children] using below
    exact .object (by simp [test, first, Json.Finite.null])
  | ifElse condition positive negative =>
    exact .object (by simpa [children] using below)
  | whileLoop condition body => exact .object (by simpa [children] using below)
  | print expression => exact below _ List.mem_cons_self
  | assign name expression =>
    have inner : expression.toJson.Finite := below _ List.mem_cons_self
    exact .object (by simp [inner, Json.Finite.string])
  | binary op left right =>
    exact .object (by simpa [children, Json.Finite.string] using below)
  | unary op operand => exact .object (by simpa [children, Json.Finite.string] using below)
  | reference name => exact .string name
  | literal value => exact .number ((Encoding.is_finite_iff value).mp (own value rfl))

theorem finite_to_json {root : Node}
    (finite : ∀ value, .literal value ∈ root.nodes → value.isFinite = true) :
    root.toJson.Finite := by
  induction root using child_induction with
  | step root induction =>
    rw [to_json_eq]
    refine .object (List.forall_mem_singleton.mpr (finite_content ?_ ?_))
    · intro entry listed
      apply induction entry listed
      intro value member
      exact finite value (mem_nodes_iff.mpr ((mem_nodes_iff.mp member).of_child listed))
    · rintro value rfl
      exact finite value (mem_nodes_iff.mpr .top)

/-- Two trees with the same text are the same tree, if no literal of theirs is infinite or no
number: those are all written `null`. -/
theorem json_determines_tree (tree other : Node)
    (finite : ∀ value, .literal value ∈ tree.nodes → value.isFinite = true)
    (otherFinite : ∀ value, .literal value ∈ other.nodes → value.isFinite = true) :
    (tree.toJson.compact = other.toJson.compact → tree = other) ∧
      (tree.toJson.pretty = other.toJson.pretty → tree = other) := by
  have compact : tree.toJson.compact = other.toJson.compact → tree = other := by
    intro same
    have letters : tree.toJson.letters ++ [] = other.toJson.letters ++ [] := by
      rw [Json.letters, Json.letters, same]
    have unique := (finite_to_json finite).unique other.toJson (finite_to_json otherFinite) [] []
      (by simp [Json.Apart]) (by simp [Json.Apart]) letters
    exact eq_of_to_json_eq unique.1
  refine ⟨compact, fun same => compact ?_⟩
  apply String.toList_inj.mp
  rw [← Json.squeeze_pretty, ← Json.squeeze_pretty, same]

/-- The sign of a zero is in the text, so `print 0` and `print -0` are told apart. -/
theorem json_determines_tree_zeros :
    (∀ value, .literal value ∈ (print (.literal 0.0)).nodes → value.isFinite = true) ∧
      (∀ value, .literal value ∈ (print (.literal (-0.0))).nodes → value.isFinite = true) ∧
      (print (.literal 0.0)).toJson.compact ≠ (print (.literal (-0.0))).toJson.compact ∧
      (print (.literal 0.0)).toJson.pretty ≠ (print (.literal (-0.0))).toJson.pretty := by
  have finite : ∀ value, .literal value ∈ (print (.literal 0.0)).nodes → value.isFinite = true := by
    simp only [nodes, List.mem_cons, List.not_mem_nil, or_false, reduceCtorEq, false_or,
      literal.injEq, forall_eq]
    decide
  have otherFinite : ∀ value, .literal value ∈ (print (.literal (-0.0))).nodes →
      value.isFinite = true := by
    simp only [nodes, List.mem_cons, List.not_mem_nil, or_false, reduceCtorEq, false_or,
      literal.injEq, forall_eq]
    decide
  have different : print (.literal 0.0) ≠ print (.literal (-0.0)) := by
    intro same
    have bits := congrArg Float.toBits (literal.inj (print.inj same))
    exact absurd bits (by decide)
  obtain ⟨compact, pretty⟩ := json_determines_tree _ _ finite otherFinite
  exact ⟨finite, otherFinite, mt compact different, mt pretty different⟩

end Node

end WhileLang
