import ScriptTypes.Syntax.Naming
import ScriptTypes.Syntax.Place
import ScriptTypes.Syntax.Walk

/-!
# Functions in the tree

Parameters, return statements and names of functions. A function literal is named by the variable
that it is the value of.
-/

namespace ScriptTypes

/-- A parameter of a function: a name, or a pattern that takes the argument apart. -/
structure Param where
  name : Option String
  isRest : Bool
  default : Option Node
  pattern : Option Node

/-- The parameter that a node declares. -/
def Param.ofNode (node : Node) : Param :=
  -- An empty name is no name: what stands in its place is taken for a pattern.
  let nonempty (target : Option Node) : Option String :=
    (target.bind Node.identifierName?).filter (· ≠ "")
  match node.kind with
  | .identifier => ⟨node.text, false, none, none⟩
  | .assignmentPattern =>
    let target := node.child? .left
    match nonempty target with
    | some name => ⟨some name, false, node.child? .right, none⟩
    | none => ⟨none, false, node.child? .right, target⟩
  | .restPattern =>
    let target := node.operand?
    match nonempty target with
    | some name => ⟨some name, true, none, none⟩
    | none => ⟨none, true, none, target⟩
  | _ => ⟨none, false, none, some node⟩

namespace Node

/-! ## Parameters -/

/-- The nodes that declare the parameters of a function. -/
def parameters (node : Node) : List Node :=
  match node.child? .parameter with
  | some single => [single]
  | none =>
    match node.child? .parameters with
    | some list => list.operands
    | none => []

/-- The parameters of a function. -/
def params (node : Node) : List Param := node.parameters.map Param.ofNode

/-! ## Results -/

/-- The body of a function. -/
def body? (node : Node) : Option Node := node.child? .body

/-- The walk through the body of a function that looks for its return statements. -/
def returnWalk : Walk where
  handler kind := if kind = .returnStatement then some fun _ => .skip else none
  isBoundary := Kind.isFunctionBoundary

theorem skips_returnWalk (node : Node) :
    returnWalk.skips node = decide (node.kind = .returnStatement) := by
  by_cases h : node.kind = .returnStatement <;> simp [Walk.skips, returnWalk, h]

/-- The return statements of a block, those of functions inside it left out. -/
def returnStatements (block : Node) : List Node := returnWalk.handled block

/-- The expressions that a function may return. A body that is no block is returned itself. -/
def returnExpressions (node : Node) : List Node :=
  match node.body? with
  | none => []
  | some body =>
    if body.kind = .statementBlock then body.returnStatements.filterMap operand? else [body]

/-- Whether a function returns at all, with or without a value. -/
def hasReturn (node : Node) : Bool :=
  match node.body? with
  | none => false
  | some body => if body.kind = .statementBlock then !body.returnStatements.isEmpty else true

end Node

namespace Place

/-! ## Names of functions -/

/-- The name under which a function is declared: its own, or that of the variable whose value the
literal is. -/
def functionName? (place : Place) : Option String :=
  if place.node.kind.isFunctionDeclaration then (place.node.child? .name).bind (·.text)
  else if place.node.kind.isFunctionLiteral then
    match place.parent? with
    | some parent =>
      if parent.kind = .variableDeclarator then (parent.child? .name).bind Node.identifierName?
      else none
    | none => none
  else none

/-- The name of the nearest function among ancestors that has a name. -/
def nearestFunctionName? : List Node → Option String
  | [] => none
  | node :: above =>
    if node.kind.isFunction then
      match functionName? ⟨node, above⟩ with
      | some name => if name = "" then nearestFunctionName? above else some name
      | none => nearestFunctionName? above
    else nearestFunctionName? above

/-- The name of the nearest function around the place that has a name. -/
def enclosingFunctionName? (place : Place) : Option String := nearestFunctionName? place.above

end Place

end ScriptTypes
