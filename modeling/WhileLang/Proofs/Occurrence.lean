import WhileLang.Proofs.Shape

/-!
# What occurs in a tree

All nodes of a tree in one list, and from it the names that the tree reads, the names that it
assigns to and whether it prints. These can be computed; in proofs they are said by `Node.Within`.
-/

namespace WhileLang

set_option autoImplicit false

namespace Node

mutual

/-- The node and all that stands below it. -/
def nodes : Node → List Node
  | block statements => block statements :: nodesAll statements
  | ifThen condition positive => ifThen condition positive :: (condition.nodes ++ positive.nodes)
  | ifElse condition positive negative =>
    ifElse condition positive negative :: (condition.nodes ++ positive.nodes ++ negative.nodes)
  | whileLoop condition body => whileLoop condition body :: (condition.nodes ++ body.nodes)
  | print expression => print expression :: expression.nodes
  | assign name expression => assign name expression :: expression.nodes
  | binary op left right => binary op left right :: (left.nodes ++ right.nodes)
  | unary op operand => unary op operand :: operand.nodes
  | reference name => [reference name]
  | literal value => [literal value]

def nodesAll : List Node → List Node
  | [] => []
  | first :: rest => first.nodes ++ nodesAll rest

end

def readName? : Node → Option String
  | reference name => some name
  | _ => none

def targetName? : Node → Option String
  | assign name _ => some name
  | _ => none

def isPrint : Node → Bool
  | print _ => true
  | _ => false

def reads (node : Node) : List String :=
  node.nodes.filterMap readName?

def targets (node : Node) : List String :=
  node.nodes.filterMap targetName?

def prints (node : Node) : Bool :=
  node.nodes.any isPrint

variable {root node parent child : Node} {name : String}

theorem nodes_all_eq_flat_map (statements : List Node) :
    nodesAll statements = statements.flatMap nodes := by
  induction statements with
  | nil => rfl
  | cons first rest induction => rw [nodesAll, induction, List.flatMap_cons]

theorem nodes_eq (root : Node) :
    root.nodes = root :: root.children.flatMap fun entry => entry.2.nodes := by
  cases root with
  | block statements => simp [nodes, children, nodes_all_eq_flat_map, List.flatMap_map]
  | _ => simp [nodes, children]

theorem within_iff :
    root.Within node ↔ node = root ∨ ∃ entry ∈ root.children, entry.2.Within node := by
  constructor
  · intro within
    induction within with
    | top => exact .inl rfl
    | under above listed induction =>
      right
      rcases induction with rfl | ⟨entry, member, inner⟩
      · exact ⟨_, listed, .top⟩
      · exact ⟨entry, member, inner.under listed⟩
  · rintro (rfl | ⟨entry, member, inner⟩)
    · exact .top
    · exact inner.of_child member

/-- Induction over trees that treats all children alike. -/
theorem child_induction {motive : Node → Prop}
    (step : ∀ root : Node, (∀ entry ∈ root.children, motive entry.2) → motive root) (root : Node) :
    motive root := by
  induction root using tree_induction with
  | block statements induction => exact step _ (by simpa [children] using induction)
  | ifThen condition positive test first => exact step _ (by simp [children, test, first])
  | ifElse condition positive negative test first second =>
    exact step _ (by simp [children, test, first, second])
  | whileLoop condition body test inner => exact step _ (by simp [children, test, inner])
  | print expression inner => exact step _ (by simp [children, inner])
  | assign name expression inner => exact step _ (by simp [children, inner])
  | binary op left right first second => exact step _ (by simp [children, first, second])
  | unary op operand inner => exact step _ (by simp [children, inner])
  | reference name => exact step _ (by simp [children])
  | literal value => exact step _ (by simp [children])

theorem mem_nodes_iff : node ∈ root.nodes ↔ root.Within node := by
  induction root using child_induction with
  | step root below =>
    rw [nodes_eq, List.mem_cons, List.mem_flatMap, within_iff]
    exact or_congr_right (exists_congr fun entry => and_congr_right (below entry))

theorem mem_reads_of_within (within : root.Within (.reference name)) : name ∈ root.reads :=
  List.mem_filterMap.mpr ⟨_, mem_nodes_iff.mpr within, rfl⟩

theorem mem_targets_of_within {expression : Node} (within : root.Within (.assign name expression)) :
    name ∈ root.targets :=
  List.mem_filterMap.mpr ⟨_, mem_nodes_iff.mpr within, rfl⟩

theorem prints_of_within {expression : Node} (within : root.Within (.print expression)) :
    root.prints = true :=
  List.any_eq_true.mpr ⟨_, mem_nodes_iff.mpr within, rfl⟩

theorem Within.descend (within : root.Within parent)
    (listed : child ∈ parent.children.map Prod.snd) :
    root.Within child := by
  obtain ⟨⟨role, _⟩, member, rfl⟩ := List.mem_map.mp listed
  exact within.under member

end Node

end WhileLang
