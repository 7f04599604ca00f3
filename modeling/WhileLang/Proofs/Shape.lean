import WhileLang.Proofs.WholeNumber
import WhileLang.Node

/-!
# The shape of trees

What the tree of a program looks like, said of all its nodes at once (`Node.Shaped`) and node by
node along the tree (`Node.Fits`). The two agree; the first is for readers, the second for
inductions.
-/

namespace WhileLang

set_option autoImplicit false

namespace Node

/-- How a node stands under its parent. -/
inductive Role where
  /-- A condition, an operand, or what is printed or assigned. -/
  | value
  /-- One of the statements of a block. -/
  | element
  /-- A branch of an `if` or the body of a loop. -/
  | branch
  deriving DecidableEq

def children : Node → List (Role × Node)
  | block statements => statements.map fun statement => (.element, statement)
  | ifThen condition positive => [(.value, condition), (.branch, positive)]
  | ifElse condition positive negative =>
    [(.value, condition), (.branch, positive), (.branch, negative)]
  | whileLoop condition body => [(.value, condition), (.branch, body)]
  | print expression => [(.value, expression)]
  | assign _ expression => [(.value, expression)]
  | binary _ left right => [(.value, left), (.value, right)]
  | unary _ operand => [(.value, operand)]
  | reference _ => []
  | literal _ => []

def isBlock : Node → Bool
  | block _ => true
  | _ => false

inductive Within (root : Node) : Node → Prop where
  | top : Within root root
  | under {parent child : Node} {role : Role} (above : Within root parent)
      (listed : (role, child) ∈ parent.children) : Within root child

structure Shaped (root : Node) : Prop where
  /-- A block other than the root is a branch or a body. -/
  placed : ∀ parent role child, root.Within parent → (role, child) ∈ parent.children →
    child.isBlock = true → role = .branch
  plural : ∀ statements, root.Within (.block statements) → statements.length ≠ 1
  flat : ∀ statements, root.Within (.block statements) → ∀ child ∈ statements, child.isBlock = false
  values : ∀ parent child, root.Within parent → (.value, child) ∈ parent.children →
    child.isStatement = false
  references : ∀ name, root.Within (.reference name) → IsName name
  targets : ∀ name expression, root.Within (.assign name expression) → IsName name
  literals : ∀ value, root.Within (.literal value) → IsWhole value

/-- The node and all below it are shaped so for this role. -/
inductive Fits : Role → Node → Prop where
  | block {statements : List Node} (plural : statements.length ≠ 1)
      (elements : ∀ statement ∈ statements, Fits .element statement) :
      Fits .branch (.block statements)
  | ifThen {role : Role} {condition positive : Node} (placed : role ≠ .value)
      (test : Fits .value condition) (first : Fits .branch positive) :
      Fits role (.ifThen condition positive)
  | ifElse {role : Role} {condition positive negative : Node} (placed : role ≠ .value)
      (test : Fits .value condition) (first : Fits .branch positive)
      (second : Fits .branch negative) :
      Fits role (.ifElse condition positive negative)
  | whileLoop {role : Role} {condition body : Node} (placed : role ≠ .value)
      (test : Fits .value condition) (inner : Fits .branch body) :
      Fits role (.whileLoop condition body)
  | print {role : Role} {expression : Node} (placed : role ≠ .value)
      (inner : Fits .value expression) :
      Fits role (.print expression)
  | assign {role : Role} {name : String} {expression : Node} (named : IsName name)
      (inner : Fits .value expression) : Fits role (.assign name expression)
  | binary {role : Role} (op : BinaryOp) {left right : Node} (first : Fits .value left)
      (second : Fits .value right) : Fits role (.binary op left right)
  | unary {role : Role} (op : UnaryOp) {operand : Node} (inner : Fits .value operand) :
      Fits role (.unary op operand)
  | reference {role : Role} {name : String} (named : IsName name) : Fits role (.reference name)
  | literal {role : Role} {value : Float} (whole : IsWhole value) : Fits role (.literal value)

variable {role : Role} {root node child : Node}

theorem Within.of_child (listed : (role, child) ∈ root.children) (within : child.Within node) :
    root.Within node := by
  induction within with
  | top => exact .under .top listed
  | under _ inner induction => exact .under induction inner

theorem Fits.descend {inner : Role} (fits : Fits role node)
    (listed : (inner, child) ∈ node.children) :
    Fits inner child := by
  have entries : ∀ entry ∈ node.children, Fits entry.1 entry.2 := by
    cases fits with
    | block _ elements => simpa [children] using elements
    | ifThen _ test first => simp [children, test, first]
    | ifElse _ test first second => simp [children, test, first, second]
    | whileLoop _ test inner => simp [children, test, inner]
    | print _ inner => simp [children, inner]
    | assign _ inner => simp [children, inner]
    | binary _ first second => simp [children, first, second]
    | unary _ inner => simp [children, inner]
    | reference _ => simp [children]
    | literal _ => simp [children]
  exact entries (inner, child) listed

theorem Fits.within (fits : Fits role root) (within : root.Within node) :
    ∃ inner, Fits inner node := by
  induction within with
  | top => exact ⟨role, fits⟩
  | under above listed induction =>
    obtain ⟨inner, parent⟩ := induction
    exact ⟨_, parent.descend listed⟩

theorem Fits.branch_of_block (fits : Fits role node) (block : node.isBlock = true) :
    role = .branch := by
  cases fits <;> first | rfl | cases block

theorem Fits.not_block (fits : Fits .element node) : node.isBlock = false := by
  rw [Bool.eq_false_iff]
  intro block
  cases fits.branch_of_block block

theorem Fits.not_statement (fits : Fits .value node) : node.isStatement = false := by
  cases fits <;> first | rfl | contradiction

theorem Fits.shaped (fits : Fits role root) : root.Shaped where
  placed := by
    intro parent inner child within listed block
    obtain ⟨outer, above⟩ := fits.within within
    exact (above.descend listed).branch_of_block block
  plural := by
    intro statements within
    obtain ⟨_, fits⟩ := fits.within within
    cases fits with
    | block plural _ => exact plural
  flat := by
    intro statements within child member
    obtain ⟨_, fits⟩ := fits.within within
    cases fits with
    | block _ elements =>
      exact (elements child member).not_block
  values := by
    intro parent child within listed
    obtain ⟨_, above⟩ := fits.within within
    exact (above.descend listed).not_statement
  references := by
    intro name within
    obtain ⟨_, fits⟩ := fits.within within
    cases fits with
    | reference named => exact named
  targets := by
    intro name expression within
    obtain ⟨_, fits⟩ := fits.within within
    cases fits with
    | assign named _ => exact named
  literals := by
    intro value within
    obtain ⟨_, fits⟩ := fits.within within
    cases fits with
    | literal whole => exact whole

/-- Induction over trees, blocks included. -/
@[elab_as_elim]
theorem tree_induction {motive : Node → Prop}
    (block : ∀ statements, (∀ statement ∈ statements, motive statement) →
      motive (.block statements))
    (ifThen : ∀ condition positive, motive condition → motive positive →
      motive (.ifThen condition positive))
    (ifElse : ∀ condition positive negative, motive condition → motive positive → motive negative →
      motive (.ifElse condition positive negative))
    (whileLoop : ∀ condition body, motive condition → motive body →
      motive (.whileLoop condition body))
    (print : ∀ expression, motive expression → motive (.print expression))
    (assign : ∀ name expression, motive expression → motive (.assign name expression))
    (binary : ∀ op left right, motive left → motive right → motive (.binary op left right))
    (unary : ∀ op operand, motive operand → motive (.unary op operand))
    (reference : ∀ name, motive (.reference name)) (literal : ∀ value, motive (.literal value))
    (node : Node) : motive node := by
  apply @Node.rec motive (fun statements => ∀ statement ∈ statements, motive statement)
  · exact block
  · exact fun _ _ => ifThen _ _
  · exact fun _ _ _ => ifElse _ _ _
  · exact fun _ _ => whileLoop _ _
  · exact print
  · exact assign
  · exact fun op left right => binary op left right
  · exact unary
  · exact reference
  · exact literal
  · simp
  · intro first rest head tail
    exact List.forall_mem_cons.mpr ⟨head, tail⟩

theorem Shaped.fits (shaped : root.Shaped) (node : Node) (within : root.Within node) (role : Role)
    (placed : node.isBlock = true → role = .branch)
    (plain : role = .value → node.isStatement = false) :
    Fits role node := by
  have child : ∀ {parent child : Node} {inner : Role}, root.Within parent →
      (inner, child) ∈ parent.children →
      (root.Within child → ∀ role, (child.isBlock = true → role = .branch) →
        (role = .value → child.isStatement = false) → Fits role child) → Fits inner child := by
    intro parent child inner above listed induction
    apply induction (.under above listed)
    · exact shaped.placed parent inner child above listed
    · rintro rfl
      exact shaped.values parent child above listed
  induction node using tree_induction generalizing role with
  | block statements induction =>
    cases placed rfl
    apply Fits.block (shaped.plural statements within)
    intro statement member
    exact child within (List.mem_map_of_mem member) (induction statement member)
  | ifThen condition positive test first =>
    apply Fits.ifThen (fun same => by cases plain same)
    · exact child within (by simp [children]) test
    · exact child within (by simp [children]) first
  | ifElse condition positive negative test first second =>
    apply Fits.ifElse (fun same => by cases plain same)
    · exact child within (by simp [children]) test
    · exact child within (by simp [children]) first
    · exact child within (by simp [children]) second
  | whileLoop condition body test inner =>
    apply Fits.whileLoop (fun same => by cases plain same)
    · exact child within (by simp [children]) test
    · exact child within (by simp [children]) inner
  | print expression inner =>
    apply Fits.print (fun same => by cases plain same)
    exact child within (by simp [children]) inner
  | assign name expression inner =>
    apply Fits.assign (shaped.targets name expression within)
    exact child within (by simp [children]) inner
  | binary op left right first second =>
    apply Fits.binary op
    · exact child within (by simp [children]) first
    · exact child within (by simp [children]) second
  | unary op operand inner =>
    apply Fits.unary op
    exact child within (by simp [children]) inner
  | reference name => exact .reference (shaped.references name within)
  | literal value => exact .literal (shaped.literals value within)

theorem shaped_iff_fits : root.Shaped ↔ Fits .branch root := by
  constructor
  · intro shaped
    exact shaped.fits root .top .branch (fun _ => rfl) (by simp)
  · exact Fits.shaped

theorem Fits.moved {other : Role} (fits : Fits role node)
    (placed : node.isBlock = true → other = .branch)
    (plain : other = .value → node.isStatement = false) :
    Fits other node := by
  cases fits with
  | block plural elements =>
    cases placed rfl
    exact .block plural elements
  | ifThen _ test first => exact .ifThen (fun same => by cases plain same) test first
  | ifElse _ test first second => exact .ifElse (fun same => by cases plain same) test first second
  | whileLoop _ test inner => exact .whileLoop (fun same => by cases plain same) test inner
  | print _ inner => exact .print (fun same => by cases plain same) inner
  | assign named inner => exact .assign named inner
  | binary op first second => exact .binary op first second
  | unary op inner => exact .unary op inner
  | reference named => exact .reference named
  | literal whole => exact .literal whole

theorem Fits.expression (fits : Fits role node) (expression : node.isStatement = false)
    (other : Role) :
    Fits other node := by
  apply fits.moved
  · intro block
    cases node with
    | block statements => cases expression
    | _ => cases block
  · intro _
    exact expression

theorem Fits.of_statements {nodes : List Node} (elements : ∀ node ∈ nodes, Fits .element node) :
    Fits .branch (.ofStatements nodes) := by
  by_cases single : nodes.length = 1
  · obtain ⟨node, rfl⟩ := List.length_eq_one_iff.mp single
    exact (elements node (by simp)).moved (fun _ => rfl) (by simp)
  · rw [of_statements_eq_block single]
    exact .block single elements

end Node

end WhileLang
