import WhileLang.Proofs.Grammar
import WhileLang.Proofs.Shape

/-!
# Branches without braces

The text of a tree has no braces but those of its blocks. Read again, an `else` goes to the nearest
`if` without one, and infinity, which is shown as `inf`, is a name. `Node.regroup` is the tree that
comes out. It is the tree that went in exactly if no branch with an `else` behind it is open and no
literal is infinite.
-/

namespace WhileLang

set_option autoImplicit false

namespace Node

/-- The last `if` of the statement has no `else`, so that one behind the statement would belong to
it. -/
def isOpen : Node → Bool
  | ifThen _ _ => true
  | ifElse _ _ negative => negative.isOpen
  | whileLoop _ body => body.isOpen
  | _ => false

/-- An open statement with an `else` behind it, which goes to the last `if` that has none. -/
def attach : Node → Node → Node
  | ifThen condition positive, other =>
    if positive.isOpen then .ifThen condition (positive.attach other)
    else .ifElse condition positive other
  | ifElse condition positive negative, other => .ifElse condition positive (negative.attach other)
  | whileLoop condition body, other => .whileLoop condition (body.attach other)
  | node, _ => node

mutual

/-- The tree that the text of a node is read as. -/
def regroup : Node → Node
  | block statements => .block (regroupAll statements)
  | ifThen condition positive => .ifThen condition.regroup positive.regroup
  | ifElse condition positive negative =>
    if positive.regroup.isOpen then
      .ifThen condition.regroup (positive.regroup.attach negative.regroup)
    else .ifElse condition.regroup positive.regroup negative.regroup
  | whileLoop condition body => .whileLoop condition.regroup body.regroup
  | print expression => .print expression.regroup
  | assign name expression => .assign name expression.regroup
  | binary op left right => .binary op left.regroup right.regroup
  | unary op operand => .unary op operand.regroup
  | reference name => .reference name
  | literal value =>
    if magnitude value = Magnitude.infinity then .reference "inf" else .literal value

def regroupAll : List Node → List Node
  | [] => []
  | first :: rest => first.regroup :: regroupAll rest

end

theorem regroup_all_eq_map (nodes : List Node) : regroupAll nodes = nodes.map regroup := by
  induction nodes with
  | nil => rfl
  | cons first rest induction => rw [regroupAll, induction, List.map_cons]

theorem is_block_regroup (node : Node) : node.regroup.isBlock = node.isBlock := by
  cases node with
  | ifElse condition positive negative =>
    rw [regroup]
    split <;> rfl
  | literal value =>
    rw [regroup]
    split <;> rfl
  | _ => rw [regroup] <;> rfl

theorem is_statement_regroup (node : Node) : node.regroup.isStatement = node.isStatement := by
  cases node with
  | ifElse condition positive negative =>
    rw [regroup]
    split <;> rfl
  | literal value =>
    rw [regroup]
    split <;> rfl
  | _ => rw [regroup] <;> rfl

theorem is_open_of_not_statement {node : Node} (expression : node.isStatement = false) :
    node.isOpen = false := by
  cases node <;> first | rfl | cases expression

/-- Nothing in the tree is changed by writing and reading it. -/
structure Settled (root : Node) : Prop where
  closed : ∀ condition positive negative, root.Within (.ifElse condition positive negative) →
    positive.isOpen = false
  finite : ∀ value, root.Within (.literal value) → magnitude value ≠ Magnitude.infinity

variable {root node child parent : Node} {role : Role}

theorem Settled.of_child (settled : root.Settled) (listed : (role, child) ∈ root.children) :
    child.Settled where
  closed := by
    intro condition positive negative within
    exact settled.closed _ _ _ (within.of_child listed)
  finite := by
    intro value within
    exact settled.finite value (within.of_child listed)

theorem regroup_child (fixed : parent.regroup = parent) (listed : (role, child) ∈ parent.children) :
    child.regroup = child := by
  have entries : ∀ entry ∈ parent.children, entry.2.regroup = entry.2 := by
    cases parent with
    | block statements =>
      rw [regroup, regroup_all_eq_map, Node.block.injEq] at fixed
      simpa [children] using List.map_inj_left.mp (fixed.trans (List.map_id statements).symm)
    | ifElse condition positive negative =>
      rw [regroup] at fixed
      split at fixed
      · cases fixed
      · simpa [children] using fixed
    | ifThen condition positive => simpa [children, regroup] using fixed
    | whileLoop condition body => simpa [children, regroup] using fixed
    | print expression => simpa [children, regroup] using fixed
    | assign name expression => simpa [children, regroup] using fixed
    | binary op left right => simpa [children, regroup] using fixed
    | unary op operand => simpa [children, regroup] using fixed
    | reference name => simp [children]
    | literal value => simp [children]
  exact entries (role, child) listed

theorem regroup_within (fixed : root.regroup = root) (within : root.Within node) :
    node.regroup = node := by
  induction within with
  | top => exact fixed
  | under _ listed induction => exact regroup_child induction listed

theorem Settled.regroup (settled : root.Settled) : root.regroup = root := by
  have child : ∀ {parent child : Node} (role : Role), parent.Settled →
      (role, child) ∈ parent.children → (child.Settled → child.regroup = child) →
      child.regroup = child := by
    intro parent child role settled listed induction
    exact induction (settled.of_child listed)
  induction root using tree_induction with
  | block statements induction =>
    rw [Node.regroup, regroup_all_eq_map]
    apply congrArg Node.block
    apply Eq.trans _ (List.map_id statements)
    apply List.map_inj_left.mpr
    intro statement member
    exact child .element settled (List.mem_map_of_mem member) (induction statement member)
  | ifThen condition positive test first =>
    rw [Node.regroup, child .value settled (by simp [children]) test,
      child .branch settled (by simp [children]) first]
  | ifElse condition positive negative test first second =>
    have closed := settled.closed condition positive negative .top
    rw [Node.regroup, child .value settled (by simp [children]) test,
      child .branch settled (by simp [children]) first,
      child .branch settled (by simp [children]) second, closed]
    rfl
  | whileLoop condition body test inner =>
    rw [Node.regroup, child .value settled (by simp [children]) test,
      child .branch settled (by simp [children]) inner]
  | print expression inner => rw [Node.regroup, child .value settled (by simp [children]) inner]
  | assign name expression inner =>
    rw [Node.regroup, child .value settled (by simp [children]) inner]
  | binary op left right first second =>
    rw [Node.regroup, child .value settled (by simp [children]) first,
      child .value settled (by simp [children]) second]
  | unary op operand inner => rw [Node.regroup, child .value settled (by simp [children]) inner]
  | reference name => rfl
  | literal value => rw [Node.regroup, if_neg (settled.finite value .top)]

theorem regroup_eq_self_iff : root.regroup = root ↔ root.Settled := by
  constructor
  · intro fixed
    constructor
    · intro condition positive negative within
      have same := regroup_within fixed within
      have listed : (.branch, positive) ∈ (Node.ifElse condition positive negative).children := by
        simp [children]
      have inner := regroup_child same listed
      rw [Node.regroup] at same
      split at same
      · cases same
      · rename_i closed
        rwa [inner, Bool.not_eq_true] at closed
    · intro value within infinite
      have same := regroup_within fixed within
      rw [Node.regroup, if_pos infinite] at same
      cases same
  · exact Settled.regroup

end Node

open Word in
/-- The words spell the node as a statement with no braces but those of its blocks. -/
inductive Bare : Node → List Word → Prop where
  | simple {node : Node} {spelling : List Word} (derives : Derives (.statement false node) spelling)
      (closed : node.isOpen = false) : Bare node spelling
  | braces {nodes : List Node} {inner : List Word} (plural : nodes.length ≠ 1)
      (body : Derives (.statements nodes) inner) :
      Bare (.block nodes) (symbol "\x7b" :: inner ++ [symbol "\x7d"])
  | ifThen {condition positive : Node} {test first : List Word}
      (head : Derives (.expression condition) test) (body : Bare positive first) :
      Bare (.ifThen condition positive) (keyword "if" :: symbol "(" :: test ++ symbol ")" :: first)
  | ifElse {condition positive negative : Node} {test first second : List Word}
      (head : Derives (.expression condition) test) (body : Bare positive first)
      (closed : positive.isOpen = false) (other : Bare negative second) :
      Bare (.ifElse condition positive negative)
        (keyword "if" :: symbol "(" :: test ++ symbol ")" :: first ++ keyword "else" :: second)
  | whileLoop {condition repeated : Node} {test inner : List Word}
      (head : Derives (.expression condition) test) (body : Bare repeated inner) :
      Bare (.whileLoop condition repeated)
        (keyword "while" :: symbol "(" :: test ++ symbol ")" :: inner)

namespace Bare

variable {node other : Node} {spelling : List Word}

/-- Without such braces a spelling dangles exactly if the statement is open. -/
theorem derives (bare : Bare node spelling) :
    Derives (.block node.isOpen node) spelling ∧
      (node.isBlock = false → Derives (.statement node.isOpen node) spelling) := by
  have both : ∀ {node : Node} {spelling : List Word},
      Derives (.statement node.isOpen node) spelling →
      Derives (.block node.isOpen node) spelling ∧
        (node.isBlock = false → Derives (.statement node.isOpen node) spelling) :=
    fun derives => ⟨.plain derives, fun _ => derives⟩
  induction bare with
  | simple derives closed =>
    rw [← closed] at derives
    exact both derives
  | braces plural body => exact ⟨.braces body (.several plural), fun none => by cases none⟩
  | ifThen head _ body => exact both (.ifThen head body.1)
  | ifElse head _ closed _ body other =>
    rw [closed] at body
    exact both (.ifElse head body.1 other.1)
  | whileLoop head _ body => exact both (.whileLoop head body.1)

/-- An `else` behind an open statement goes where `attach` puts it. -/
theorem attach {behind : List Word} (bare : Bare node spelling) (opened : node.isOpen = true)
    (after : Bare other behind) :
    Bare (node.attach other) (spelling ++ Word.keyword "else" :: behind) := by
  induction bare with
  | simple _ closed =>
    rw [closed] at opened
    cases opened
  | braces => cases opened
  | @ifThen condition positive test first head body induction =>
    rw [Node.attach]
    split
    · rename_i inner
      have joined := Bare.ifThen head (induction inner)
      simpa using joined
    · rename_i closed
      exact .ifElse head body (Bool.not_eq_true _ ▸ closed) after
  | ifElse head body closed _ _ induction =>
    have joined := Bare.ifElse head body closed (induction opened)
    simpa [Node.attach] using joined
  | whileLoop head _ induction =>
    have joined := Bare.whileLoop head (induction opened)
    simpa [Node.attach] using joined

end Bare

end WhileLang
