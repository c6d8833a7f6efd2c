/-!
# Kinds of nodes

The kinds of nodes of a JavaScript syntax tree that matter here, the fields under which a node
finds its children, and the groups of kinds that are treated alike. Tokens without a name of their
own are nodes too; their kind is their text.
-/

namespace ScriptTypes

/-- The kind of a node. -/
inductive Kind where
  | program
  | identifier
  | propertyIdentifier
  | shorthandProperty
  | shorthandPattern
  | variableDeclarator
  | functionDeclaration
  | generatorFunctionDeclaration
  | functionExpression
  | functionToken
  | generatorFunction
  | arrowFunction
  | methodDefinition
  | classDeclaration
  | formalParameters
  | assignmentPattern
  | objectAssignmentPattern
  | restPattern
  | objectPattern
  | arrayPattern
  | pairPattern
  | statementBlock
  | returnStatement
  | callExpression
  | newExpression
  | memberExpression
  | subscriptExpression
  | optionalChain
  | arguments
  | awaitExpression
  | binaryExpression
  | unaryExpression
  | updateExpression
  | ternaryExpression
  | parenthesizedExpression
  | sequenceExpression
  | assignmentExpression
  | augmentedAssignmentExpression
  | spreadElement
  | array
  | object
  | pair
  | string
  | templateString
  | number
  | regex
  | trueLiteral
  | falseLiteral
  | nullLiteral
  | undefinedLiteral
  | asyncToken
  | comment
  | other (name : String)
deriving DecidableEq, Repr

namespace Kind

/-- The kind of a name. -/
def ofName : String → Kind
  | "program" => program
  | "identifier" => identifier
  | "property_identifier" => propertyIdentifier
  | "shorthand_property_identifier" => shorthandProperty
  | "shorthand_property_identifier_pattern" => shorthandPattern
  | "variable_declarator" => variableDeclarator
  | "function_declaration" => functionDeclaration
  | "generator_function_declaration" => generatorFunctionDeclaration
  | "function_expression" => functionExpression
  | "function" => functionToken
  | "generator_function" => generatorFunction
  | "arrow_function" => arrowFunction
  | "method_definition" => methodDefinition
  | "class_declaration" => classDeclaration
  | "formal_parameters" => formalParameters
  | "assignment_pattern" => assignmentPattern
  | "object_assignment_pattern" => objectAssignmentPattern
  | "rest_pattern" => restPattern
  | "object_pattern" => objectPattern
  | "array_pattern" => arrayPattern
  | "pair_pattern" => pairPattern
  | "statement_block" => statementBlock
  | "return_statement" => returnStatement
  | "call_expression" => callExpression
  | "new_expression" => newExpression
  | "member_expression" => memberExpression
  | "subscript_expression" => subscriptExpression
  | "optional_chain" => optionalChain
  | "arguments" => arguments
  | "await_expression" => awaitExpression
  | "binary_expression" => binaryExpression
  | "unary_expression" => unaryExpression
  | "update_expression" => updateExpression
  | "ternary_expression" => ternaryExpression
  | "parenthesized_expression" => parenthesizedExpression
  | "sequence_expression" => sequenceExpression
  | "assignment_expression" => assignmentExpression
  | "augmented_assignment_expression" => augmentedAssignmentExpression
  | "spread_element" => spreadElement
  | "array" => array
  | "object" => object
  | "pair" => pair
  | "string" => string
  | "template_string" => templateString
  | "number" => number
  | "regex" => regex
  | "true" => trueLiteral
  | "false" => falseLiteral
  | "null" => nullLiteral
  | "undefined" => undefinedLiteral
  | "async" => asyncToken
  | "comment" => comment
  | name => other name

/-! ## Groups of kinds -/

/-- A function written as an expression. The token `function` is one of them. -/
def isFunctionLiteral : Kind → Bool
  | functionExpression | functionToken | generatorFunction | arrowFunction => true
  | _ => false

/-- A function declared with a name of its own. -/
def isFunctionDeclaration : Kind → Bool
  | functionDeclaration | generatorFunctionDeclaration => true
  | _ => false

/-- Either kind of function. -/
def isFunction (kind : Kind) : Bool := kind.isFunctionLiteral || kind.isFunctionDeclaration

/-- Where the body of a function ends: whatever has return statements of its own. -/
def isFunctionBoundary (kind : Kind) : Bool :=
  kind.isFunction || kind = methodDefinition || kind = classDeclaration

/-- A pattern that takes a value apart. -/
def isDestructuring : Kind → Bool
  | objectPattern | arrayPattern => true
  | _ => false

/-- A literal whose type its kind tells. -/
def isLiteral : Kind → Bool
  | string | templateString | trueLiteral | falseLiteral | number | nullLiteral
  | undefinedLiteral | regex => true
  | _ => false

end Kind

/-- The field under which a node finds one of its children. -/
inductive Field where
  | name
  | value
  | key
  | body
  | parameters
  | parameter
  | left
  | right
  | operator
  | callee
  | arguments
  | object
  | property
  | index
  | builder
  | consequence
  | alternative
deriving DecidableEq, Repr

/-- The field of a name. -/
def Field.ofName? : String → Option Field
  | "name" => some name
  | "value" => some value
  | "key" => some key
  | "body" => some body
  | "parameters" => some parameters
  | "parameter" => some parameter
  | "left" => some left
  | "right" => some right
  | "operator" => some operator
  | "function" => some callee
  | "arguments" => some arguments
  | "object" => some object
  | "property" => some property
  | "index" => some index
  | "constructor" => some builder
  | "consequence" => some consequence
  | "alternative" => some alternative
  | _ => none

end ScriptTypes
