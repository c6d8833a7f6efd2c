import ScriptTypes.Syntax.Place

/-!
# Binding patterns

The names that a pattern binds, in the order in which they are written, and the test whether a
place binds a name rather than uses it.
-/

namespace ScriptTypes

/-- A name with the node that binds it. -/
structure Binding where
  name : String
  node : Node

namespace Node

mutual
/-- The names that a pattern binds. -/
def bindings : Node → List Binding
  | node@⟨_, kind, _, _, text, children⟩ =>
    match kind with
    | .identifier | .shorthandPattern =>
      match text with
      | some name => if name = "" then [] else [⟨name, node⟩]
      | none => []
    | .pairPattern => bindingsIn .value children
    | .assignmentPattern | .objectAssignmentPattern => bindingsIn .left children
    | .objectPattern | .arrayPattern | .restPattern => bindingsOfOperands children
    | _ => []

/-- The names bound by the child in a field. -/
def bindingsIn (field : Field) : List Node → List Binding
  | [] => []
  | node :: nodes => if node.field = some field then bindings node else bindingsIn field nodes

/-- The names bound by the children that carry meaning. -/
def bindingsOfOperands : List Node → List Binding
  | [] => []
  | node :: nodes =>
    if node.isOperand then bindings node ++ bindingsOfOperands nodes else bindingsOfOperands nodes
end

end Node

/-- Whether the place of an identifier binds the name. -/
def Place.isBinding (place : Place) : Bool :=
  match place.parent? with
  | none => false
  | some parent =>
    match parent.kind with
    | .variableDeclarator => parent.hasIn .name place.node
    | .assignmentPattern | .objectAssignmentPattern => parent.hasIn .left place.node
    | .pairPattern => parent.hasIn .value place.node
    | .formalParameters | .restPattern | .arrayPattern | .objectPattern => true
    | .arrowFunction => parent.hasIn .parameter place.node
    | kind => kind.isFunction && parent.hasIn .name place.node

end ScriptTypes
