import WhileLang.Json
import WhileLang.Node

/-!
# Trees as JSON

Every node is written under a tag that says what it is; the parts of a node with several are members
of an object, in a fixed order.
-/

namespace WhileLang

set_option autoImplicit false

def Json.tagged (tag : String) (document : Json) : Json :=
  .object [(tag, document)]

def Level.tag : Level → String
  | logical => "LogicalExpr"
  | comparison => "Comparison"
  | arithmetic => "Arithmetic"
  | term => "Term"

namespace Node

mutual

def toJson : Node → Json
  | block statements => .tagged "CodeBlock" (.array (toJsonAll statements))
  | ifThen condition positive =>
    .tagged "If" (.object [("condition", condition.toJson), ("positive_block", positive.toJson),
      ("negative_block", .null)])
  | ifElse condition positive negative =>
    .tagged "If" (.object [("condition", condition.toJson), ("positive_block", positive.toJson),
      ("negative_block", negative.toJson)])
  | whileLoop condition body =>
    .tagged "While" (.object [("condition", condition.toJson), ("body", body.toJson)])
  | print expression => .tagged "Print" expression.toJson
  | assign name expression =>
    .tagged "Assignment"
      (.object [("variable_name", .string name), ("expression", expression.toJson)])
  | binary op left right =>
    .tagged op.level.tag
      (.object [("op", .string op.name), ("left", left.toJson), ("right", right.toJson)])
  | unary op operand =>
    .tagged "Unary" (.object [("op", .string op.name), ("operand", operand.toJson)])
  | reference name => .tagged "Variable" (.string name)
  | literal value => .tagged "NumericLiteral" (.number value)

def toJsonAll : List Node → List Json
  | [] => []
  | first :: rest => first.toJson :: toJsonAll rest

end

end Node

end WhileLang
