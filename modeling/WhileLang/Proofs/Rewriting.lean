import WhileLang.Proofs.Occurrence

/-!
# Rewriting a tree to its normal form

Three rules bring a tree that was built by hand into the shape of one that was read. A statement
where a value is needed becomes zero, a block in a block is spliced into it, and a block of one
statement becomes that statement. They can be applied anywhere in the tree and in any order:
rewriting always comes to an end, and always to the same one, which `Node.normalise` computes in one
pass.
-/

namespace WhileLang

set_option autoImplicit false

namespace Node

/-- A node without one of its children. -/
inductive Context where
  | element (front back : List Node)
  | ifThenCondition (positive : Node)
  | ifThenPositive (condition : Node)
  | ifElseCondition (positive negative : Node)
  | ifElsePositive (condition negative : Node)
  | ifElseNegative (condition positive : Node)
  | loopCondition (body : Node)
  | loopBody (condition : Node)
  | printed
  | assigned (name : String)
  | leftOperand (op : BinaryOp) (right : Node)
  | rightOperand (op : BinaryOp) (left : Node)
  | operand (op : UnaryOp)

namespace Context

def role : Context → Role
  | element _ _ => .element
  | ifThenPositive _ | ifElsePositive _ _ | ifElseNegative _ _ | loopBody _ => .branch
  | ifThenCondition _ | ifElseCondition _ _ | loopCondition _ | printed | assigned _
  | leftOperand _ _ | rightOperand _ _ | operand _ => .value

def plug : Context → Node → Node
  | element front back, child => .block (front ++ child :: back)
  | ifThenCondition positive, child => .ifThen child positive
  | ifThenPositive condition, child => .ifThen condition child
  | ifElseCondition positive negative, child => .ifElse child positive negative
  | ifElsePositive condition negative, child => .ifElse condition child negative
  | ifElseNegative condition positive, child => .ifElse condition positive child
  | loopCondition body, child => .whileLoop child body
  | loopBody condition, child => .whileLoop condition child
  | printed, child => .print child
  | assigned name, child => .assign name child
  | leftOperand op right, child => .binary op child right
  | rightOperand op left, child => .binary op left child
  | operand op, child => .unary op child

theorem mem_children (context : Context) (child : Node) :
    (context.role, child) ∈ (context.plug child).children := by
  cases context <;> simp [role, plug, children]

theorem is_statement_plug (context : Context) (child other : Node) :
    (context.plug child).isStatement = (context.plug other).isStatement := by
  cases context <;> rfl

end Context

theorem exists_context {role : Role} {node child : Node} (listed : (role, child) ∈ node.children) :
    ∃ context : Context, context.role = role ∧ context.plug child = node := by
  cases node with
  | block statements =>
    obtain ⟨statement, member, same⟩ := List.mem_map.mp listed
    cases same
    obtain ⟨front, back, rfl⟩ := List.append_of_mem member
    exact ⟨.element front back, rfl, rfl⟩
  | ifThen condition positive =>
    simp only [children, List.mem_cons, List.not_mem_nil, or_false] at listed
    rcases listed with same | same <;> cases same
    · exact ⟨.ifThenCondition positive, rfl, rfl⟩
    · exact ⟨.ifThenPositive condition, rfl, rfl⟩
  | ifElse condition positive negative =>
    simp only [children, List.mem_cons, List.not_mem_nil, or_false] at listed
    rcases listed with same | same | same <;> cases same
    · exact ⟨.ifElseCondition positive negative, rfl, rfl⟩
    · exact ⟨.ifElsePositive condition negative, rfl, rfl⟩
    · exact ⟨.ifElseNegative condition positive, rfl, rfl⟩
  | whileLoop condition body =>
    simp only [children, List.mem_cons, List.not_mem_nil, or_false] at listed
    rcases listed with same | same <;> cases same
    · exact ⟨.loopCondition body, rfl, rfl⟩
    · exact ⟨.loopBody condition, rfl, rfl⟩
  | print expression =>
    cases List.mem_singleton.mp listed
    exact ⟨.printed, rfl, rfl⟩
  | assign name expression =>
    cases List.mem_singleton.mp listed
    exact ⟨.assigned name, rfl, rfl⟩
  | binary op left right =>
    simp only [children, List.mem_cons, List.not_mem_nil, or_false] at listed
    rcases listed with same | same <;> cases same
    · exact ⟨.leftOperand op right, rfl, rfl⟩
    · exact ⟨.rightOperand op left, rfl, rfl⟩
  | unary op operand =>
    cases List.mem_singleton.mp listed
    exact ⟨.operand op, rfl, rfl⟩
  | reference name => cases listed
  | literal value => cases listed

/-- One of the rules is applied to the node, which stands in this role, or somewhere below it. -/
inductive Rewrites : Role → Node → Node → Prop where
  | zero {node : Node} (statement : node.isStatement = true) : Rewrites .value node (.literal 0)
  | splice {role : Role} (front inner back : List Node) :
      Rewrites role (.block (front ++ .block inner :: back)) (.block (front ++ inner ++ back))
  /-- Where a value is needed a block is zero, whatever the statement in it. -/
  | single {role : Role} (placed : role ≠ .value) (statement : Node) :
      Rewrites role (.block [statement]) statement
  | within {role : Role} (context : Context) {child next : Node}
      (inner : Rewrites context.role child next) :
      Rewrites role (context.plug child) (context.plug next)

def Normal (role : Role) (node : Node) : Prop :=
  ∀ next, ¬Rewrites role node next

/-- Applying rules any number of times leads from the one node to the other. -/
abbrev Reaches (role : Role) : Node → Node → Prop :=
  Relation.ReflTransGen (Rewrites role)

/-- Applying rules to the tree until none can be applied leads to the form. -/
def RewritesTo (tree form : Node) : Prop :=
  Reaches .branch tree form ∧ Normal .branch form

/-- The statements of a block; any other node is a statement by itself. -/
def elements : Node → List Node
  | block statements => statements
  | node => [node]

/-- What becomes of a node where a value is needed, if elsewhere it becomes `result`. -/
def valued (node result : Node) : Node :=
  if node.isStatement then .literal 0 else result

mutual

/-- The tree with every statement in the place of a value replaced by zero, and without blocks in
blocks and blocks of one statement. -/
def normalise : Node → Node
  | block statements => .ofStatements (normaliseAll statements)
  | ifThen condition positive => .ifThen (condition.valued condition.normalise) positive.normalise
  | ifElse condition positive negative =>
    .ifElse (condition.valued condition.normalise) positive.normalise negative.normalise
  | whileLoop condition body => .whileLoop (condition.valued condition.normalise) body.normalise
  | print expression => .print (expression.valued expression.normalise)
  | assign name expression => .assign name (expression.valued expression.normalise)
  | binary op left right => .binary op (left.valued left.normalise) (right.valued right.normalise)
  | unary op operand => .unary op (operand.valued operand.normalise)
  | reference name => .reference name
  | literal value => .literal value

def normaliseAll : List Node → List Node
  | [] => []
  | first :: rest => first.normalise.elements ++ normaliseAll rest

end

variable {role other : Role} {node next child tree form : Node} {nodes : List Node}

def Flat (node : Node) : Prop :=
  ∀ statements, node = .block statements →
    statements.length ≠ 1 ∧ ∀ statement ∈ statements, statement.isBlock = false

theorem flat_of_not_block (plain : node.isBlock = false) : node.Flat := by
  rintro statements rfl
  cases plain

theorem normal_iff :
    Normal role node ↔ (role = .value → node.isStatement = false) ∧ node.Flat ∧
      ∀ entry ∈ node.children, Normal entry.1 entry.2 := by
  constructor
  · intro normal
    have plain : role = .value → node.isStatement = false := by
      rintro rfl
      rw [Bool.eq_false_iff]
      exact fun statement => normal _ (.zero statement)
    refine ⟨plain, ?_, ?_⟩
    · rintro statements rfl
      constructor
      · intro alone
        obtain ⟨statement, rfl⟩ := List.length_eq_one_iff.mp alone
        exact normal _ (.single (fun value => by cases plain value) statement)
      · intro statement member
        obtain ⟨front, back, rfl⟩ := List.append_of_mem member
        cases statement with
        | block inner => exact absurd (.splice front inner back) (normal _)
        | _ => rfl
    · rintro ⟨inner, child⟩ listed next step
      obtain ⟨context, rfl, rfl⟩ := exists_context listed
      exact normal _ (.within context step)
  · rintro ⟨plain, flat, below⟩ next step
    cases step with
    | zero statement => cases statement.symm.trans (plain rfl)
    | splice front inner back => cases (flat _ rfl).2 (.block inner) (by simp)
    | single placed statement => exact (flat _ rfl).1 rfl
    | within context inner => exact below _ (context.mem_children _) _ inner

/-- In a role where no value is needed it does not matter which one it is. -/
theorem Normal.moved (normal : Normal role node) (placed : other ≠ .value) : Normal other node := by
  obtain ⟨_, flat, below⟩ := normal_iff.mp normal
  exact normal_iff.mpr ⟨fun value => absurd value placed, flat, below⟩

theorem normal_literal (role : Role) (value : Float) : Normal role (.literal value) :=
  normal_iff.mpr ⟨fun _ => rfl, flat_of_not_block rfl, by simp [children]⟩

theorem normalise_all_eq_flat_map (statements : List Node) :
    normaliseAll statements = statements.flatMap fun statement => statement.normalise.elements := by
  induction statements with
  | nil => rfl
  | cons first rest induction => rw [normaliseAll, induction, List.flatMap_cons]

theorem flat_of_statements (plain : ∀ node ∈ nodes, node.isBlock = false) :
    (ofStatements nodes).Flat := by
  by_cases single : nodes.length = 1
  · obtain ⟨node, rfl⟩ := List.length_eq_one_iff.mp single
    exact flat_of_not_block (plain node List.mem_cons_self)
  · rw [of_statements_eq_block single]
    rintro statements same
    cases same
    exact ⟨single, plain⟩

theorem Flat.not_block_of_mem_elements (flat : node.Flat) :
    ∀ element ∈ node.elements, element.isBlock = false := by
  cases node with
  | block statements => exact (flat statements rfl).2
  | _ => exact List.forall_mem_singleton.mpr rfl

theorem flat_normalise (node : Node) : node.normalise.Flat := by
  induction node using tree_induction with
  | block statements induction =>
    rw [normalise, normalise_all_eq_flat_map]
    apply flat_of_statements
    intro element member
    obtain ⟨statement, listed, inner⟩ := List.mem_flatMap.mp member
    exact (induction statement listed).not_block_of_mem_elements element inner
  | _ => exact flat_of_not_block rfl

theorem not_block_of_mem_normalise_all (statements : List Node) :
    ∀ element ∈ normaliseAll statements, element.isBlock = false := by
  rw [normalise_all_eq_flat_map]
  intro element member
  obtain ⟨statement, _, inner⟩ := List.mem_flatMap.mp member
  exact (flat_normalise statement).not_block_of_mem_elements element inner

theorem elements_of_statements (plain : ∀ node ∈ nodes, node.isBlock = false) :
    (ofStatements nodes).elements = nodes := by
  by_cases single : nodes.length = 1
  · obtain ⟨node, rfl⟩ := List.length_eq_one_iff.mp single
    have alone := plain node List.mem_cons_self
    cases node with
    | block statements => cases alone
    | _ => rfl
  · rw [of_statements_eq_block single]
    rfl

theorem Flat.of_statements_elements (flat : node.Flat) : ofStatements node.elements = node := by
  cases node with
  | block statements => exact of_statements_eq_block (flat statements rfl).1
  | _ => rfl

theorem normal_of_statements (placed : role ≠ .value) (plain : ∀ node ∈ nodes, node.isBlock = false)
    (normal : ∀ node ∈ nodes, Normal .element node) : Normal role (ofStatements nodes) := by
  by_cases single : nodes.length = 1
  · obtain ⟨node, rfl⟩ := List.length_eq_one_iff.mp single
    exact (normal node List.mem_cons_self).moved placed
  · rw [of_statements_eq_block single]
    refine normal_iff.mpr ⟨fun value => absurd value placed, ?_, ?_⟩
    · rw [← of_statements_eq_block single]
      exact flat_of_statements plain
    · simpa [children] using normal

theorem Normal.of_mem_elements (normal : Normal .element node) :
    ∀ element ∈ node.elements, Normal .element element := by
  cases node with
  | block statements =>
    intro element member
    exact (normal_iff.mp normal).2.2 (.element, element) (List.mem_map_of_mem member)
  | _ => exact List.forall_mem_singleton.mpr normal

def normaliseAs (role : Role) (node : Node) : Node :=
  if role = .value then node.valued node.normalise else node.normalise

theorem normalise_as_cases (role : Role) (node : Node) :
    (role = .value ∧ node.isStatement = true ∧ node.normaliseAs role = .literal 0) ∨
      ((role = .value → node.isStatement = false) ∧ node.normaliseAs role = node.normalise) := by
  unfold normaliseAs valued
  grind

theorem is_statement_normalise (plain : node.isBlock = false) :
    node.normalise.isStatement = node.isStatement := by
  cases node <;> first | rfl | cases plain

theorem children_normalise (plain : node.isBlock = false) :
    node.normalise.children = node.children.map fun entry =>
      (entry.1, entry.2.normaliseAs entry.1) := by
  cases node <;> first | rfl | cases plain

theorem normal_normalise (node : Node) (role : Role)
    (plain : role = .value → node.isStatement = false) :
    Normal role node.normalise := by
  induction node using child_induction generalizing role with
  | step root below =>
    cases kind : root.isBlock with
    | true =>
      cases root with
      | block statements =>
        have placed : role ≠ .value := fun value => by cases plain value
        apply normal_of_statements placed (not_block_of_mem_normalise_all statements)
        rw [normalise_all_eq_flat_map]
        intro element member
        obtain ⟨statement, listed, inner⟩ := List.mem_flatMap.mp member
        have normal := below (.element, statement) (List.mem_map_of_mem listed) .element (by simp)
        exact normal.of_mem_elements element inner
      | _ => cases kind
    | false =>
      rw [normal_iff, is_statement_normalise kind, children_normalise kind]
      refine ⟨plain, flat_normalise root, ?_⟩
      intro entry member
      obtain ⟨⟨inner, child⟩, listed, rfl⟩ := List.mem_map.mp member
      rcases normalise_as_cases inner child with ⟨value, _, zero⟩ | ⟨expression, same⟩
      · rw [zero]
        exact normal_literal inner 0
      · rw [same]
        exact below _ listed inner expression

theorem reaches_within (role : Role) (context : Context)
    (reaches : Reaches context.role child next) :
    Reaches role (context.plug child) (context.plug next) :=
  Relation.ReflTransGen.lift context.plug (fun _ _ step => Rewrites.within context step) _ _ reaches

theorem reaches_as (reaches : ∀ role, (role = .value → node.isStatement = false) →
    Reaches role node node.normalise)
    (role : Role) : Reaches role node (node.normaliseAs role) := by
  rcases normalise_as_cases role node with ⟨rfl, statement, zero⟩ | ⟨expression, same⟩
  · rw [zero]
    exact .single (.zero statement)
  · rw [same]
    exact reaches role expression

theorem reaches_elements (role : Role) (front back : List Node) (node : Node) :
    Reaches role (.block (front ++ node :: back)) (.block (front ++ (node.elements ++ back))) := by
  cases node with
  | block inner =>
    rw [← List.append_assoc]
    exact .single (.splice front inner back)
  | _ => exact .refl

/-- The statements of a block are rewritten one after the other, those in front first. -/
theorem reaches_normalise_all (each : ∀ node ∈ nodes, Reaches .element node node.normalise)
    (front : List Node) :
    Reaches role (.block (front ++ nodes)) (.block (front ++ normaliseAll nodes)) := by
  induction nodes generalizing front with
  | nil => exact .refl
  | cons first rest induction =>
    obtain ⟨head, tail⟩ := List.forall_mem_cons.mp each
    have rewritten : Reaches role (.block (front ++ first :: rest))
        (.block (front ++ first.normalise :: rest)) :=
      reaches_within role (.element front rest) head
    have spliced := reaches_elements role front rest first.normalise
    have later := induction tail (front ++ first.normalise.elements)
    rw [List.append_assoc, List.append_assoc] at later
    exact (rewritten.trans spliced).trans later

theorem reaches_of_statements (placed : role ≠ .value) (nodes : List Node) :
    Reaches role (.block nodes) (.ofStatements nodes) := by
  by_cases single : nodes.length = 1
  · obtain ⟨node, rfl⟩ := List.length_eq_one_iff.mp single
    exact .single (.single placed node)
  · rw [of_statements_eq_block single]

theorem reaches_normalise (node : Node) (role : Role)
    (plain : role = .value → node.isStatement = false) :
    Reaches role node node.normalise := by
  induction node using tree_induction generalizing role with
  | block statements induction =>
    have placed : role ≠ .value := fun value => by cases plain value
    have each : ∀ statement ∈ statements, Reaches .element statement statement.normalise :=
      fun statement member => induction statement member .element (by simp)
    exact (reaches_normalise_all each []).trans (reaches_of_statements placed _)
  | ifThen condition positive test first =>
    have tested := reaches_within role (.ifThenCondition positive) (reaches_as test .value)
    exact tested.trans (reaches_within role (.ifThenPositive _) (reaches_as first .branch))
  | ifElse condition positive negative test first second =>
    have tested := reaches_within role (.ifElseCondition positive negative) (reaches_as test .value)
    have taken :=
      tested.trans (reaches_within role (.ifElsePositive _ negative) (reaches_as first .branch))
    exact taken.trans (reaches_within role (.ifElseNegative _ _) (reaches_as second .branch))
  | whileLoop condition body test inner =>
    have tested := reaches_within role (.loopCondition body) (reaches_as test .value)
    exact tested.trans (reaches_within role (.loopBody _) (reaches_as inner .branch))
  | print expression inner => exact reaches_within role .printed (reaches_as inner .value)
  | assign name expression inner =>
    exact reaches_within role (.assigned name) (reaches_as inner .value)
  | binary op left right first second =>
    have computed := reaches_within role (.leftOperand op right) (reaches_as first .value)
    exact computed.trans (reaches_within role (.rightOperand op _) (reaches_as second .value))
  | unary op operand inner => exact reaches_within role (.operand op) (reaches_as inner .value)
  | reference name => exact .refl
  | literal value => exact .refl

theorem normalise_plug (context : Context)
    (same : child.normaliseAs context.role = next.normaliseAs context.role) :
    (context.plug child).normalise = (context.plug next).normalise := by
  cases context with
  | element front back =>
    have parts : child.normalise = next.normalise := same
    simp only [Context.plug, normalise, normalise_all_eq_flat_map, List.flatMap_append,
      List.flatMap_cons, parts]
  | ifThenCondition positive => exact congrArg (Node.ifThen · positive.normalise) same
  | ifThenPositive condition => exact congrArg (Node.ifThen _) same
  | ifElseCondition positive negative =>
    exact congrArg (Node.ifElse · positive.normalise negative.normalise) same
  | ifElsePositive condition negative => exact congrArg (Node.ifElse _ · negative.normalise) same
  | ifElseNegative condition positive => exact congrArg (Node.ifElse _ positive.normalise) same
  | loopCondition body => exact congrArg (Node.whileLoop · body.normalise) same
  | loopBody condition => exact congrArg (Node.whileLoop _) same
  | printed => exact congrArg Node.print same
  | assigned name => exact congrArg (Node.assign name) same
  | leftOperand op right => exact congrArg (Node.binary op · _) same
  | rightOperand op left => exact congrArg (Node.binary op _) same
  | operand op => exact congrArg (Node.unary op) same

theorem normalise_splice (front inner back : List Node) :
    (block (front ++ .block inner :: back)).normalise =
      (block (front ++ inner ++ back)).normalise := by
  have opened : (block inner).normalise.elements = normaliseAll inner :=
    elements_of_statements (not_block_of_mem_normalise_all inner)
  rw [normalise, normalise, normalise_all_eq_flat_map, normalise_all_eq_flat_map,
    List.flatMap_append, List.flatMap_cons, opened, normalise_all_eq_flat_map, List.flatMap_append,
    List.flatMap_append, List.append_assoc]

/-- No rule changes what the tree is normalised to. -/
theorem Rewrites.normalise_as_eq (step : Rewrites role node next) :
    node.normaliseAs role = next.normaliseAs role := by
  induction step with
  | zero statement =>
    rw [normaliseAs, if_pos rfl, valued, if_pos statement]
    rfl
  | splice front inner back => simp only [normaliseAs, valued, isStatement, normalise_splice]
  | single placed statement =>
    rw [normaliseAs, normaliseAs, if_neg placed, if_neg placed, normalise, normaliseAll,
      normaliseAll, List.append_nil]
    exact (flat_normalise statement).of_statements_elements
  | @within role context child next inner induction =>
    rw [normaliseAs, normaliseAs, valued, valued, normalise_plug context induction,
      context.is_statement_plug child next]

def weight (node : Node) : Nat :=
  node.nodes.countP isStatement

theorem weight_eq (node : Node) :
    node.weight =
      (node.children.map fun entry => entry.2.weight).sum + if node.isStatement then 1 else 0 := by
  rw [weight, nodes_eq, List.countP_cons, List.countP_flatMap]
  rfl

theorem weight_block (statements : List Node) :
    (block statements).weight = (statements.map weight).sum + 1 := by
  rw [weight_eq, children, List.map_map]
  rfl

theorem weight_plug_lt (context : Context) (lighter : next.weight < child.weight) :
    (context.plug next).weight < (context.plug child).weight := by
  rw [weight_eq, weight_eq (context.plug child), context.is_statement_plug next child]
  apply Nat.add_lt_add_right
  cases context <;> simp only [Context.plug, children, List.map_append, List.map_cons, List.map_nil,
    List.sum_append, List.sum_cons, List.sum_nil] <;> omega

theorem Rewrites.lighter (step : Rewrites role node next) : next.weight < node.weight := by
  induction step with
  | @zero node statement =>
    rw [weight_eq node, if_pos statement]
    exact Nat.succ_pos _
  | splice front inner back =>
    simp only [weight_block, List.map_append, List.map_cons, List.sum_append, List.sum_cons]
    omega
  | single placed statement =>
    simp only [weight_block, List.map_cons, List.map_nil, List.sum_cons, List.sum_nil]
    omega
  | within context inner induction => exact weight_plug_lt context induction

/-- Rewriting comes to an end, whatever rule is applied where. -/
theorem rewrites_well_founded (role : Role) :
    WellFounded fun next node => Rewrites role node next :=
  Subrelation.wf (fun step => step.lighter) (measure weight).wf

theorem Normal.eq_of_reaches (normal : Normal role node) (reaches : Reaches role node next) :
    next = node := by
  rcases Relation.ReflTransGen.cases_head reaches with same | ⟨between, step, _⟩
  · exact same.symm
  · exact absurd step (normal between)

theorem Normal.normalise_eq (normal : Normal .branch node) : node.normalise = node :=
  normal.eq_of_reaches (reaches_normalise node .branch (by simp))

theorem Reaches.normalise_eq (reaches : Reaches .branch tree form) :
    tree.normalise = form.normalise := by
  induction reaches with
  | refl => rfl
  | tail _ step induction => exact induction.trans step.normalise_as_eq

/-- Rewriting a tree until no rule applies, in any order, gives `normalise` of it and nothing
else. -/
theorem rewrites_to_iff : tree.RewritesTo form ↔ form = tree.normalise := by
  constructor
  · rintro ⟨reaches, normal⟩
    exact normal.normalise_eq.symm.trans (Reaches.normalise_eq reaches).symm
  · rintro rfl
    exact ⟨reaches_normalise tree .branch (by simp), normal_normalise tree .branch (by simp)⟩

end Node

end WhileLang
