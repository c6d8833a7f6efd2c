import ScriptTypes.Syntax.Node

/-!
# Names in the tree

How identifiers, property keys, callees and members are spelled.
-/

namespace ScriptTypes.Node

/-- The text of an identifier. -/
def identifierName? (node : Node) : Option String :=
  if node.kind = .identifier then node.text else none

/-- The text between the quotes of a string literal. -/
def stringValue? (node : Node) : Option String :=
  match node.text with
  | some text =>
    if text.length < 2 then none else some (String.ofList text.toList.tail.dropLast)
  | none => none

/-- The name of a property, from the node that spells it. Computed keys have none. -/
def propertyKey? (node : Node) : Option String :=
  match node.kind with
  | .string => node.stringValue?
  | .propertyIdentifier | .number | .identifier => node.text
  | _ => none

/-- The arguments of a call. -/
def callArguments (node : Node) : List Node :=
  match node.child? .arguments with
  | some list => if list.kind = .arguments then list.operands else []
  | none => []

/-- The name of the called function, if it is called by name. -/
def calleeName? (node : Node) : Option String := (node.child? .callee).bind identifierName?

/-- The name of the member that is accessed. -/
def memberName? (node : Node) : Option String := (node.child? .property).bind (·.text)

/-- The name of the object whose member is accessed, if it is a plain name. -/
def namespace? (node : Node) : Option String := (node.child? .object).bind identifierName?

end ScriptTypes.Node
