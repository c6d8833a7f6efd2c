import ScriptTypes.Syntax.Function
import ScriptTypes.Typing.Builtin
import ScriptTypes.Typing.Operator

/-!
# Typing rules

The rules that give an expression its type. They are written for any typer: a `Forms` says how the
typer treats subexpressions and the forms whose type depends on more than the expression itself,
and `Forms.typeOf` does the rest. The operands of an expression are typed from left to right.
-/

namespace ScriptTypes.Typing

/-- How a typer treats subexpressions, names, function literals, calls and accesses to members. -/
structure Forms (m : Type → Type) where
  infer : Node → m Estimate
  name : Option String → m Estimate
  functionLiteral : Node → m Estimate
  call : Node → m Estimate
  member : Node → m Estimate
  subscript : Node → m Estimate

section

variable {m : Type → Type} [Monad m]

/-! ## Calls and members of the standard library -/

/-- The promise of a value that was handed over. -/
def promiseOf (value : Estimate) : Estimate :=
  .of (.promise value.type) (max .promiseMin (value.confidence * .resolveDecay))

/-- A promise of which nothing is known. -/
def unknownPromise : Estimate := .of (.promise .any) .promiseFallback

/-- The type of a call of a function of a known namespace. -/
def staticCall? (infer : Node → m Estimate) (call callee : Node) : m (Option Estimate) :=
  match callee.namespace?, callee.memberName? with
  | some ns, some method =>
    if ns = "Promise" ∧ method = "resolve" then
      match call.callArguments with
      | [] => pure (some unknownPromise)
      | value :: _ => do pure (some (promiseOf (← infer value)))
    else if ns ∈ Builtin.numericNamespaces then pure (some (.of .number .staticMember))
    else pure ((Builtin.staticMethods.lookup (ns, method)).map fun type => .of type .staticMember)
  | _, _ => pure none

/-- The type of a call as far as the standard library tells. -/
def knownCall (infer : Node → m Estimate) (call : Node) : m Estimate :=
  match call.child? .callee with
  | none => pure .unknownCall
  | some callee =>
    match callee.kind with
    | .identifier =>
      match callee.text.bind fun name => Builtin.globalCalls.lookup name with
      | some type => pure (.of type .knownCall)
      | none => pure .unknownCall
    | .memberExpression => do pure ((← staticCall? infer call callee).getD .unknownCall)
    | _ => pure .unknownCall

/-- The type of a constant of a known namespace. -/
def staticProperty? (member : Node) : Option Estimate :=
  match member.namespace?, member.memberName? with
  | some ns, some property =>
    (Builtin.staticProperties.lookup (ns, property)).map fun type => .of type .staticMember
  | _, _ => none

/-! ## Constructors -/

/-- The best of some candidates and one to beat; of equals the earlier stays. -/
def mostConfident (infer : Node → m Estimate) (best : Estimate) : List Node → m Estimate
  | [] => pure best
  | node :: nodes => do
    let candidate ← infer node
    mostConfident infer (if best.confidence < candidate.confidence then candidate else best) nodes

/-- The values that a promise executor resolves with: the first arguments of the calls, anywhere
inside it, of the function that its first parameter names. -/
def resolvedValues (executor : Node) (resolve : String) : List Node :=
  executor.preorder.filterMap fun node =>
    if node.kind = .callExpression ∧ node.calleeName? = some resolve then node.callArguments.head?
    else none

/-- The type of a promise made by its constructor. -/
def promiseConstructor (infer : Node → m Estimate) (node : Node) : m Estimate :=
  match node.callArguments.head? with
  | none => pure unknownPromise
  | some executor =>
    if executor.kind.isFunctionLiteral then
      match executor.params.head?.bind (·.name) with
      | none => pure unknownPromise
      | some resolve => do
        let value ←
          mostConfident infer (.of .any .executorDefault) (resolvedValues executor resolve)
        pure (promiseOf value)
    else pure unknownPromise

/-- The type of an object made by a constructor. -/
def newObject (infer : Node → m Estimate) (node : Node) : m Estimate :=
  match (node.child? .builder).bind Node.identifierName? with
  | none => pure (.of .object .objectFallback)
  | some name =>
    if name = "Promise" then promiseConstructor infer node
    else
      match Builtin.constructors.lookup name with
      | some type => pure (.of type .knownConstructor)
      | none => pure (.of (.generic name []) .unknownConstructor)

/-! ## Arrays and objects -/

/-- The type of the elements that a spread puts into an array. -/
def spreadElement (infer : Node → m Estimate) (spread : Node) : m Estimate :=
  match spread.operand? with
  | none => pure .unknown
  | some inner => do
    let source ← infer inner
    match source.type with
    | .array element => pure (.of element source.confidence)
    | .string => pure (.of .string source.confidence)
    | _ => pure .unknown

/-- The types of the elements of an array literal. -/
def elementTypes (infer : Node → m Estimate) : List Node → m (List Estimate)
  | [] => pure []
  | node :: nodes => do
    let first ← if node.kind = .spreadElement then spreadElement infer node else infer node
    let rest ← elementTypes infer nodes
    pure (first :: rest)

/-- The type of an array of elements: their common type if each is known well enough. -/
def arrayOf (elements : List Estimate) : Estimate :=
  match elements with
  | [] => .of (.array .any) .emptyArray
  | first :: _ =>
    if elements.all (fun e => e.type == first.type && Confidence.elementMin < e.confidence) &&
        !first.type.isAny then
      .of (.array first.type) .uniformArray
    else .of (.array .any) .mixedArray

/-- The shape of an object literal, member by member. A key written twice keeps its place and takes
the later value. -/
def objectShape (forms : Forms m) (shape : List (String × Estimate)) :
    List Node → m (List (String × Estimate))
  | [] => pure shape
  | node :: nodes =>
    match node.kind with
    | .pair =>
      match (node.child? .key).bind Node.propertyKey?, node.child? .value with
      | some key, some value => do
        objectShape forms (Entries.set shape key (← forms.infer value)) nodes
      | _, _ => objectShape forms shape nodes
    | .shorthandProperty =>
      match node.text with
      | some key =>
        if key = "" then objectShape forms shape nodes
        else do objectShape forms (Entries.set shape key (← forms.name (some key))) nodes
      | none => objectShape forms shape nodes
    | .methodDefinition =>
      match (node.child? .name).bind Node.propertyKey? with
      | some key => objectShape forms (Entries.set shape key (.of .function .functionLiteral)) nodes
      | none => objectShape forms shape nodes
    | _ => objectShape forms shape nodes

/-! ## Operators and the rest -/

/-- The type of a unary operation. -/
def unaryType (node : Node) : Estimate :=
  (((node.child? .operator).bind (·.text)).bind Operator.unary?).getD .unknown

/-- The type of a binary operation. -/
def binaryType (infer : Node → m Estimate) (node : Node) : m Estimate :=
  match (node.child? .operator).bind (·.text), node.child? .left, node.child? .right with
  | some operator, some left, some right => do
    let l ← infer left
    let r ← infer right
    pure (Operator.binary operator l r)
  | _, _, _ => pure .unknown

/-- The type of a conditional expression. -/
def ternaryType (infer : Node → m Estimate) (node : Node) : m Estimate :=
  match node.child? .consequence, node.child? .alternative with
  | some consequence, some alternative => do
    let l ← infer consequence
    let r ← infer alternative
    pure (l.unionOf r)
  | _, _ => pure .unknown

/-- The estimate of an awaited value. -/
def awaited (e : Estimate) : Estimate :=
  match e.type.promised? with
  | some inner => .of inner (e.confidence * .awaitDecay)
  | none => e

/-- The type of a subexpression; unknown if it is missing. -/
def inferOr (infer : Node → m Estimate) (node : Option Node) : m Estimate :=
  match node with
  | some node => infer node
  | none => pure .unknown

/-- The type of an expression without parentheses around it. -/
def Forms.typeOf (forms : Forms m) (node : Node) : m Estimate :=
  match node.kind with
  | .string | .templateString => pure (.of .string .certain)
  | .number => pure (.of .number .certain)
  | .trueLiteral | .falseLiteral => pure (.of .boolean .certain)
  | .nullLiteral => pure (.of .null .certain)
  | .undefinedLiteral => pure (.of .undefined .certain)
  | .regex => pure (.of .regExp .certain)
  | .identifier =>
    if node.text = some "undefined" then pure (.of .undefined .certain) else forms.name node.text
  | .array => do pure (arrayOf (← elementTypes forms.infer node.operands))
  | .object => do pure ⟨.object, .objectLiteral, some (← objectShape forms [] node.operands)⟩
  | .functionExpression | .functionToken | .generatorFunction | .arrowFunction =>
    forms.functionLiteral node
  | .callExpression => forms.call node
  | .newExpression => newObject forms.infer node
  | .memberExpression => forms.member node
  | .subscriptExpression => forms.subscript node
  | .unaryExpression => pure (unaryType node)
  | .updateExpression => pure (.of .number .operator)
  | .binaryExpression => binaryType forms.infer node
  | .ternaryExpression => ternaryType forms.infer node
  | .awaitExpression =>
    match node.operand? with
    | some argument => do pure (awaited (← forms.infer argument))
    | none => pure .unknown
  | .sequenceExpression => inferOr forms.infer node.operands.getLast?
  | .assignmentExpression | .augmentedAssignmentExpression =>
    inferOr forms.infer (node.child? .right)
  | _ => pure .unknown

end

/-- How many expressions may be nested before the innermost is given up. -/
def maxNesting : Nat := 100

end ScriptTypes.Typing
