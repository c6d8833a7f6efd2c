import ScriptTypes.Typing.Member
import ScriptTypes.Typing.Session

/-!
# Typing in a session

The type of an expression given what is known of the program. Names are looked up, functions are
evaluated, calls return what the function returns, and callbacks of array methods learn the types
of their parameters. Every definition takes the typer for subexpressions as an argument; `infer`
ties the knot, with one less room for nested expressions at each turn.

The clock is read each time an expression is typed and each time a function is about to be
evaluated. Where the time is used up, the expression is typed structurally and the function is not
evaluated.
-/

namespace ScriptTypes.Typing

section

variable (scope : Scope) (infer : Node → SessionM Estimate)

/-! ## Results of functions -/

/-- The best of the results of some expressions; of equals the earlier stays. -/
def bestReturn (best : Option Estimate) : List Node → SessionM (Option Estimate)
  | [] => pure best
  | node :: nodes => do
    let candidate ← infer node
    let better := best.all fun best => best.confidence < candidate.confidence
    bestReturn (if better then some candidate else best) nodes

/-- What a function returns: the best of its return expressions, nothing if it has none, and a
promise if it is asynchronous. -/
def bodyReturn (function : Node) (isAsync : Bool) : SessionM Estimate := do
  let best := (← bestReturn infer none function.returnExpressions).getD (.of .void .voidReturn)
  pure (if isAsync && !best.type.isPromise then .of (.promise best.type) best.confidence else best)

/-- Whether one more evaluation would go too deep or take too long. -/
def refused : SessionM Bool := do
  if scope.limits.maxDepth < (← get).active.length + 1 then pure true else expired scope

/-- What a function literal returns. -/
def literalReturn (function : Node) : SessionM (Option Estimate) := do
  if ← refused scope then pure none
  else some <$> evaluating none (bodyReturn infer function function.isAsync)

/-- Evaluates a declared function, notes the result and writes its signature. -/
def evaluate (function : DeclaredFunction) : SessionM Estimate := do
  let returned ← evaluating (some function.name) (bodyReturn infer function.node function.isAsync)
  record function.name returned
  writeSignature function
  pure returned

/-- What a declared function returns: not known while it is being evaluated, the same within a
session, and final once it is held firmly. -/
def functionReturn (function : DeclaredFunction) : SessionM (Option Estimate) := do
  let s ← get
  if some function.name ∈ s.active then pure none
  else
    match s.answered.get? function.name with
    | some returned => pure (some returned)
    | none =>
      match (s.returns.get? function.name).filter (Confidence.resolvedReturn ≤ ·.confidence) with
      | some returned => pure (some returned)
      | none => do
        if ← refused scope then pure none
        else some <$> evaluate infer function

/-- What a callback returns: a literal, or a function by name. -/
def callbackReturn (argument : Node) : SessionM (Option Estimate) :=
  let callback := argument.unwrapParens
  if callback.kind.isFunctionLiteral then literalReturn scope infer callback
  else
    match callback.identifierName?.bind scope.graph.function? with
    | some function => functionReturn scope infer function
    | none => pure none

/-! ## Names and functions -/

/-- The type of a name. A function is evaluated first, so that its signature is known. -/
def nameType (name : Option String) : SessionM Estimate :=
  match name with
  | none => pure .unknown
  | some name => do
    match scope.graph.function? name with
    | some function => discard (functionReturn scope infer function)
    | none => pure ()
    pure (((← get).types.get? name).getD .unknown)

/-- The type of a function literal: that of its name if it declares one, otherwise its own
signature. -/
def functionLiteralType (node : Node) : SessionM Estimate :=
  match scope.graph.functionAt? node with
  | some function => nameType scope infer (some function.name)
  | none => do
    match ← literalReturn scope infer node with
    | none => pure (.of .function .functionExpression)
    | some returned =>
      pure (.of (signature (← get).types node.params returned.type) .functionExpression)

/-! ## Callbacks of array methods -/

/-- What an array method calls its callback with: for the element callbacks the element, its index
and the array; for an ordering two elements; for a reduction the accumulated value first. -/
def callbackSeeds (receiver : Estimate) (element : Ty) (method : String) (args : List Node) :
    SessionM (List Estimate) :=
  let array := receiver.faded .callbackDecay
  let item : Estimate := .of element array.confidence
  let index : Estimate := .of .number .methodReturn
  if method ∈ Builtin.elementCallback then pure [item, index, array]
  else if method ∈ Builtin.arraySort then pure [item, item]
  else if method ∈ Builtin.arrayReduce then
    match args with
    | _ :: initial :: _ => do
      let initial ← infer initial
      let accumulated := if Confidence.elementMin ≤ initial.confidence then initial else item
      pure [accumulated, item, index, array]
    | _ => pure [item, item, index, array]
  else pure []

/-- Offers each named parameter the estimate at its position, unless that says nothing. -/
def seedParams : List (Param × Estimate) → SessionM Unit
  | [] => pure ()
  | (param, seed) :: rest => do
    match param.name with
    | some name => if param.isRest || seed.type.isAny then pure () else assign name seed false
    | none => pure ()
    seedParams rest

/-- Tells the parameters of a callback what an array method calls it with. -/
def bindCallbacks (receiver : Estimate) (method : String) (args : List Node) : SessionM Unit :=
  match receiver.type, args with
  | .array element, first :: _ =>
    let callback := first.unwrapParens
    if callback.kind.isFunctionLiteral then do
      let seeds ← callbackSeeds infer receiver element method args
      seedParams (callback.params.zip seeds)
    else pure ()
  | _, _ => pure ()

/-! ## Calls -/

/-- The result of calling something held for a function. -/
def calledResult? (callee : Estimate) : Option Estimate :=
  match callee.type with
  | .fn _ returns _ => some (.of returns (callee.confidence * .callDecay))
  | _ => none

/-- Offers the parameters of a function that is called where it is written its arguments. -/
def bindArguments : List (Param × Node) → SessionM Unit
  | [] => pure ()
  | (param, argument) :: rest => do
    match param.name with
    | some name => if param.isRest then pure () else assign name (← infer argument) false
    | none => pure ()
    bindArguments rest

/-- The result of a function that is called where it is written. -/
def immediateCall (call function : Node) : SessionM Estimate := do
  bindArguments infer (function.params.zip call.callArguments)
  pure ((← literalReturn scope infer function).getD .unknownCall)

/-- The result of a function called by name. -/
def namedCall (call : Node) (name : Option String) : SessionM Estimate :=
  match name.bind scope.graph.function? with
  | some function => do
    match ← functionReturn scope infer function with
    | some returned => pure returned
    | none => knownCall infer call
  | none => do
    match (name.bind (← get).types.get?).bind calledResult? with
    | some result => pure result
    | none => knownCall infer call

/-- The result of a method. -/
def methodCall (call callee : Node) : SessionM Estimate :=
  match callee.child? .object, callee.memberName? with
  | some object, some method => do
    let receiver ← infer object
    let args := call.callArguments
    bindCallbacks infer receiver method args
    match (receiver.property? method).bind calledResult? with
    | some result => pure result
    | none =>
      let result ← Member.methodReturn? infer (callbackReturn scope infer) receiver method args
      pure (result.getD .unknownCall)
  | _, _ => pure .unknownCall

/-- The result of a call, by what is called inside the parentheses around it. -/
def callResult (call callee : Node) : SessionM Estimate :=
  if callee.kind.isFunctionLiteral then immediateCall scope infer call callee
  else
    match callee.kind with
    | .identifier => namedCall scope infer call callee.text
    | .memberExpression => do
      match ← staticCall? infer call callee with
      | some result => pure result
      | none => methodCall scope infer call callee
    | _ => knownCall infer call

/-- The type of a call; through an optional chain it may be undefined. -/
def callType (call : Node) : SessionM Estimate :=
  match call.child? .callee with
  | none => pure .unknownCall
  | some callee => do
    let result ← callResult scope infer call callee.unwrapParens
    let isOptional := call.isOptional || (callee.kind = .memberExpression && callee.isOptional)
    pure (if isOptional then result.withUndefined else result)

/-! ## Members -/

/-- The estimate, which may be undefined if the node is reached through an optional chain. -/
def throughChain (node : Node) (e : Estimate) : Estimate :=
  if node.isOptional then e.withUndefined else e

/-- The type of a member. A constant of a known namespace is looked up at once. -/
def memberType (node : Node) : SessionM Estimate :=
  match staticProperty? node with
  | some known => pure known
  | none =>
    match node.child? .object, node.memberName? with
    | some object, some name => do
      let receiver ← infer object
      pure (throughChain node ((Member.property? receiver name).getD .unknown))
    | _, _ => pure (throughChain node .unknown)

/-- The part of a receiver that an index picks: an element, a character, or a property whose name
is written out. -/
def indexed (receiver : Estimate) (index : Option Node) : Estimate :=
  match receiver.type with
  | .array element => .of element receiver.confidence
  | .string => .of .string receiver.confidence
  | _ =>
    match index with
    | some index =>
      if index.kind = .string then
        (index.stringValue?.bind (Member.property? receiver)).getD .unknown
      else .unknown
    | none => .unknown

/-- The type of an indexed access. -/
def subscriptType (node : Node) : SessionM Estimate :=
  match node.child? .object with
  | some object => do
    let receiver ← infer object
    pure (throughChain node (indexed receiver (node.child? .index)))
  | none => pure (throughChain node .unknown)

/-! ## The typer -/

/-- The treatment of names, functions, calls and members in a session. -/
def sessionForms : Forms SessionM where
  infer := infer
  name := nameType scope infer
  functionLiteral := functionLiteralType scope infer
  call := callType scope infer
  member := memberType infer
  subscript := subscriptType infer

end

/-- The type of an expression in a session, with room for so many nested expressions. -/
def inferWithin (scope : Scope) : Nat → Node → SessionM Estimate
  | 0, _ => do
    discard (expired scope)
    pure .unknown
  | room + 1, node => do
    if ← expired scope then pure (structuralWithin (room + 1) node).run
    else nested ((sessionForms scope (inferWithin scope room)).typeOf node.unwrapParens)

/-- The type of an expression in a session, with the room that is left there. -/
def infer (scope : Scope) (node : Node) : SessionM Estimate := do
  inferWithin scope (maxNesting - (← get).nesting) node

end ScriptTypes.Typing
