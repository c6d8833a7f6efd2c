import ScriptTypes.Syntax.Pattern
import ScriptTypes.TypeMap
import ScriptTypes.Typing.Structural

/-!
# Seeds

The names that a program declares, each with what its declaration says about its type. Seeds are
offered to the map in the order in which they stand in the program.
-/

namespace ScriptTypes

/-- A first estimate for a name. -/
abbrev Seed := String × Estimate

namespace Seed

/-- A name is declared, and nothing is known of it. -/
def floor : Estimate := .of .any .floor

/-- A rest parameter is an array. -/
def rest : Estimate := .of (.array .any) .restParameter

/-- A declared function takes and returns anything. -/
def function : Estimate := .of (.fn [] .any (some (.array .any))) .functionDeclaration

/-- A seed for a name, if there is a name. -/
def forName (name : Option String) (estimate : Estimate) : List Seed :=
  match name with
  | some name => [(name, estimate)]
  | none => []

/-- The names that a pattern binds are declared. -/
def ofPattern (pattern : Option Node) : List Seed :=
  match pattern with
  | some pattern => pattern.bindings.map fun binding => (binding.name, floor)
  | none => []

/-- The structural type of a value, if there is one. -/
def ofValue (name : Option String) (value : Option Node) : List Seed :=
  match value with
  | some value => forName name (Typing.structural value)
  | none => []

/-- The seeds of a variable declaration. -/
def ofDeclarator (node : Node) : List Seed :=
  match node.child? .name with
  | none => []
  | some target =>
    if target.kind.isDestructuring then ofPattern (some target)
    else forName target.text floor ++ ofValue target.text (node.child? .value)

/-- The seeds of a parameter. -/
def ofParam (param : Param) : List Seed :=
  if param.isRest then forName param.name rest ++ ofPattern param.pattern
  else forName param.name floor ++ ofPattern param.pattern ++ ofValue param.name param.default

/-- The seeds of a function: its name if it is declared with one, and its parameters. -/
def ofFunction (node : Node) : List Seed :=
  (if node.kind.isFunctionDeclaration then forName ((node.child? .name).bind (·.text)) function
    else []) ++ node.params.flatMap ofParam

/-- The seeds of a node. -/
def ofNode (node : Node) : List Seed :=
  if node.kind = .variableDeclarator then ofDeclarator node
  else if node.kind.isFunction ∨ node.kind = .methodDefinition then ofFunction node
  else []

/-- The seeds of a program, in order. -/
def ofProgram (root : Node) : List Seed := root.preorder.flatMap ofNode

end Seed

/-- Offers seeds to a map, in order. -/
def TypeMap.plant (types : TypeMap) (seeds : List Seed) : TypeMap :=
  seeds.foldl (fun types seed => types.assign seed.1 seed.2 false) types

/-- The map that the declarations of a program give. -/
def TypeMap.collect (root : Node) : TypeMap := TypeMap.plant .empty (Seed.ofProgram root)

end ScriptTypes
