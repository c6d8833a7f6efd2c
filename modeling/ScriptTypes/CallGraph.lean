import ScriptTypes.Text.Ordered
import ScriptTypes.Typing.Structural

/-!
# Call graphs

The functions of a program that have a name, and the calls of functions by name. Of several
functions with one name the first counts. Arguments that are literals are typed at once.
-/

namespace ScriptTypes

/-- A function that is declared under a name. -/
structure DeclaredFunction where
  name : String
  params : List Param
  node : Node
  isAsync : Bool

/-- A call of a function by name: what is known of the arguments, and the name of the function
around it. -/
structure CallSite where
  callee : String
  arguments : List (Option Estimate)
  node : Node
  caller : Option String

/-- The functions and the calls of a program, each in the order in which they stand in it. -/
structure CallGraph where
  functions : List DeclaredFunction
  sites : List CallSite

/-! ## Building the graph -/

/-- Adds the function at a place, unless it has no name or one that is taken. -/
def DeclaredFunction.register (found : List DeclaredFunction) (place : Place) :
    List DeclaredFunction :=
  match place.functionName? with
  | none => found
  | some name =>
    if found.any (·.name = name) then found
    else found ++ [⟨name, place.node.params, place.node, place.node.isAsync⟩]

/-- The type of an argument that is a literal. -/
def CallSite.literalType? (argument : Node) : Option Estimate :=
  if argument.unwrapParens.kind.isLiteral then some (Typing.structural argument) else none

/-- The call at a place, if it is one by name. -/
def CallSite.ofPlace? (place : Place) : Option CallSite :=
  if place.node.kind = .callExpression then
    place.node.calleeName?.map fun callee =>
      ⟨callee, place.node.callArguments.map literalType?, place.node, place.enclosingFunctionName?⟩
  else none

namespace CallGraph

/-- The call graph of a program. -/
def ofProgram (root : Place) : CallGraph where
  functions :=
    (root.preorder.filter (·.node.kind.isFunction)).foldl DeclaredFunction.register []
  sites := root.preorder.filterMap CallSite.ofPlace?

variable (graph : CallGraph)

/-! ## Questions about the graph -/

/-- The function of a name. -/
def function? (name : String) : Option DeclaredFunction := graph.functions.find? (·.name = name)

/-- The function that a node declares. -/
def functionAt? (node : Node) : Option DeclaredFunction :=
  graph.functions.find? (·.node.label = node.label)

/-- Whether a name is that of a function. -/
def declares (name : String) : Bool := graph.functions.any (·.name = name)

/-- The functions that a function calls, by name and each once. -/
def callees (caller : String) : List String :=
  if graph.declares caller then
    let called := (graph.sites.filter (·.caller = some caller)).map (·.callee)
    Text.ordered (called.filter graph.declares)
  else []

/-- The functions that call a function, by name and each once. -/
def callers (callee : String) : List String :=
  if graph.declares callee then
    let calling := (graph.sites.filter (·.callee = callee)).filterMap (·.caller)
    Text.ordered calling
  else []

end CallGraph

end ScriptTypes
