import ScriptTypes.Syntax.Kind

/-!
# Syntax trees

A node of a syntax tree with everything below it. The label tells the nodes of one tree apart: two
occurrences of the same text are two nodes. A text is missing where the tree holds none.

* `Node.preorder`: the nodes from a node downward, each before its children.
* `Node.operands`: the children that carry meaning.
* `Node.unwrapParens`: the expression inside parentheses.
-/

namespace ScriptTypes

/-- A node of a syntax tree. -/
structure Node where
  label : Nat
  kind : Kind
  field : Option Field
  named : Bool
  text : Option String
  children : List Node

namespace Node

/-- Whether the node carries meaning for its parent: named by the grammar, and no comment. -/
def isOperand (node : Node) : Bool := node.named && node.kind ≠ .comment

/-- The children that carry meaning. -/
def operands (node : Node) : List Node := node.children.filter isOperand

/-- The first child that carries meaning. -/
def operand? (node : Node) : Option Node := node.children.find? isOperand

/-- The child in a field. -/
def child? (node : Node) (field : Field) : Option Node :=
  node.children.find? (·.field = some field)

/-- Whether a node is the child in a field. Nodes are told apart by their labels. -/
def hasIn (parent : Node) (field : Field) (node : Node) : Bool :=
  (parent.child? field).any (·.label = node.label)

/-- Whether a child is of a kind. -/
def hasChild (node : Node) (kind : Kind) : Bool := node.children.any (·.kind = kind)

/-- Whether the node is reached through an optional chain. -/
def isOptional (node : Node) : Bool := node.hasChild .optionalChain

/-- Whether the function is asynchronous. -/
def isAsync (node : Node) : Bool := node.hasChild .asyncToken

mutual
/-- The node and all below it, each before its children. -/
def preorder : Node → List Node
  | node@⟨_, _, _, _, _, children⟩ => node :: preorderAll children

/-- The nodes of several trees, one after the other. -/
def preorderAll : List Node → List Node
  | [] => []
  | node :: nodes => preorder node ++ preorderAll nodes
end

theorem preorderAll_eq_flatMap (nodes : List Node) :
    preorderAll nodes = nodes.flatMap preorder := by
  induction nodes with
  | nil => rfl
  | cons node nodes ih => simp [preorderAll, ih]

theorem preorder_eq (node : Node) : node.preorder = node :: node.children.flatMap preorder := by
  obtain ⟨_, _, _, _, _, children⟩ := node
  simp [preorder, preorderAll_eq_flatMap]

mutual
/-- The expression inside parentheses, however many there are. Empty parentheses stand for
themselves. -/
def unwrapParens : Node → Node
  | node@⟨_, kind, _, _, _, children⟩ =>
    if kind = .parenthesizedExpression then unwrapFirst node children else node

/-- The expression inside the first operand; without one, the node around them. -/
def unwrapFirst (around : Node) : List Node → Node
  | [] => around
  | node :: nodes => if node.isOperand then unwrapParens node else unwrapFirst around nodes
end

theorem unwrapFirst_eq (around : Node) (nodes : List Node) :
    unwrapFirst around nodes = (nodes.find? isOperand).elim around unwrapParens := by
  induction nodes with
  | nil => rfl
  | cons node nodes ih =>
    by_cases h : node.isOperand <;> simp [unwrapFirst, h, ih]

theorem unwrapParens_eq (node : Node) :
    node.unwrapParens =
      if node.kind = .parenthesizedExpression then node.operand?.elim node unwrapParens
      else node := by
  obtain ⟨_, kind, _, _, _, children⟩ := node
  simp [unwrapParens, unwrapFirst_eq, operand?]

end Node

end ScriptTypes
