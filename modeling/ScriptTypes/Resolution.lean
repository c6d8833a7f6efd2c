import ScriptTypes.Typing.Evaluation
import ScriptTypes.Usage

/-!
# Resolution

One round over a program. Values are passed on to the names that they are bound to, the arguments
of calls to the parameters of the called functions, every function gets a signature, and what the
uses of names say is offered last.

* `destructure`: takes a value apart along a pattern.
* `roundSession`: the session of a round.
* `resolve`: the whole round.
-/

namespace ScriptTypes.Typing

variable (scope : Scope)

/-! ## Taking values apart -/

/-- What a target is offered: the value, or its default where there is none. -/
def orDefault (offered : Option Estimate) (default : Option Node) : SessionM (Option Estimate) :=
  match offered, default with
  | none, some default => some <$> infer scope default
  | offered, _ => pure offered

/-- What an element of a destructured value is offered. -/
def elementOf (source : Estimate) : Option Estimate :=
  source.type.element?.map fun element => .of element source.confidence

mutual
/-- Binds a target to what it is offered. A name without an offer is left alone. -/
def bindTarget : Node → Option Estimate → SessionM Unit
  | node@⟨_, kind, _, _, text, children⟩, offered =>
    match kind with
    | .identifier | .shorthandPattern =>
      match text, offered with
      | some name, some estimate => assign name estimate false
      | _, _ => pure ()
    | .assignmentPattern | .objectAssignmentPattern => do
      let offered ← orDefault scope offered (node.child? .right)
      bindIn .left offered children
    | .objectPattern =>
      match offered with
      | some source => bindMembers source children
      | none => pure ()
    | .arrayPattern =>
      match offered with
      | some source => bindElements source children
      | none => pure ()
    | _ => pure ()

/-- Binds the child in a field. -/
def bindIn (field : Field) (offered : Option Estimate) : List Node → SessionM Unit
  | [] => pure ()
  | node :: nodes =>
    if node.field = some field then bindTarget node offered else bindIn field offered nodes

/-- Binds the first child that carries meaning. -/
def bindFirst (offered : Option Estimate) : List Node → SessionM Unit
  | [] => pure ()
  | node :: nodes => if node.isOperand then bindTarget node offered else bindFirst offered nodes

/-- Binds the target of a pair. -/
def bindValue (offered : Option Estimate) : Node → SessionM Unit
  | ⟨_, _, _, _, _, children⟩ => bindIn .value offered children

/-- Binds the target of a rest pattern. -/
def bindRest (offered : Option Estimate) : Node → SessionM Unit
  | ⟨_, _, _, _, _, children⟩ => bindFirst offered children

/-- Binds the members of an object pattern to the properties of a value. -/
def bindMembers (source : Estimate) : List Node → SessionM Unit
  | [] => pure ()
  | node :: nodes => do
    if node.isOperand then
      match node.kind with
      | .pairPattern =>
        match (node.child? .key).bind Node.propertyKey? with
        | some key => bindValue (Member.property? source key) node
        | none => pure ()
      | .shorthandPattern =>
        match node.text with
        | some key => bindTarget node (Member.property? source key)
        | none => pure ()
      | .objectAssignmentPattern =>
        match (node.child? .left).bind (·.text) with
        | some key => bindTarget node (Member.property? source key)
        | none => pure ()
      | .restPattern => bindRest (some (.of .object .objectLiteral)) node
      | _ => pure ()
    else pure ()
    bindMembers source nodes

/-- Binds the targets of an array pattern to the elements of a value, and a rest to the value. -/
def bindElements (source : Estimate) : List Node → SessionM Unit
  | [] => pure ()
  | node :: nodes => do
    if node.isOperand then
      if node.kind = .restPattern then
        bindRest (if source.type.element?.isSome then some source else none) node
      else bindTarget node (elementOf source)
    else pure ()
    bindElements source nodes
end

/-- Takes a value apart along a pattern. -/
def destructure (pattern : Node) (source : Estimate) : SessionM Unit :=
  if pattern.kind = .objectPattern then bindMembers scope source pattern.children
  else bindElements scope source pattern.children

/-! ## Passing values on -/

/-- Passes the value of a declaration on to its names. Literals were typed when the names were
collected, and functions with a name are typed by their signature. -/
def propagateDeclarator (node : Node) : SessionM Unit :=
  match node.child? .name, node.child? .value with
  | some target, some value =>
    let value := value.unwrapParens
    if value.kind.isLiteral then pure ()
    else if target.kind.isDestructuring then do destructure scope target (← infer scope value)
    else
      match target.text with
      | none => pure ()
      | some name =>
        if value.kind.isFunctionLiteral && scope.graph.declares name then pure ()
        else do
          let inferred ← infer scope value
          assign name
            (if value.kind = .identifier then inferred.faded .assignmentDecay else inferred) false
  | _, _ => pure ()

/-- What a round does at a node. -/
def propagateNode (node : Node) : SessionM Unit :=
  match node.kind with
  | .variableDeclarator => propagateDeclarator scope node
  | .callExpression => discard (infer scope node)
  | _ => pure ()

/-- Passes values on through a program. -/
def propagate (root : Node) : SessionM Unit := root.preorder.forM (propagateNode scope)

/-! ## Calls and signatures -/

/-- Offers the parameters of a function the arguments of a call, up to the first rest parameter.
Arguments that were typed with the call graph keep that type. -/
def refineParams : List Param → List (Node × Option Estimate) → SessionM Unit
  | param :: params, (argument, known) :: rest =>
    if param.isRest then pure ()
    else do
      match param.name with
      | some name =>
        if argument.kind = .spreadElement then pure ()
        else do
          let estimate ← known.elim (infer scope argument) pure
          assign name estimate false
      | none => pure ()
      refineParams params rest
  | _, _ => pure ()

/-- Offers the parameters of the called function the arguments of a call. -/
def refineSite (site : CallSite) : SessionM Unit :=
  match scope.graph.function? site.callee with
  | none => pure ()
  | some function => refineParams scope function.params (site.node.callArguments.zip site.arguments)

/-- Evaluates a function whose result is not final, and writes its signature. -/
def refineFunction (function : DeclaredFunction) : SessionM Unit := do
  let returned := (← get).returns.get? function.name
  if returned.any (Confidence.resolvedReturn ≤ ·.confidence) then pure ()
  else discard (functionReturn scope (infer scope) function)
  writeSignature function

/-- Passes arguments on to parameters and results on to signatures. -/
def refineCalls : SessionM Unit := do
  scope.graph.sites.forM (refineSite scope)
  scope.graph.functions.forM (refineFunction scope)

/-! ## The round -/

/-- The session of a round over a program, before the uses of its names are folded in. -/
def roundSession (root : Node) (known : Knowledge) : Session :=
  ((propagate scope root *> refineCalls scope).run (Session.start known)).run.2

/-- What is known after a session, with the uses of names folded in. -/
def Session.withUses (session : Session) (usage : Usage) : Knowledge :=
  { session.toKnowledge with types := usage.fold session.types }

/-- One round over a program, given the uses of its names. -/
def resolve (root : Node) (usage : Usage) (known : Knowledge) : Knowledge :=
  (roundSession scope root known).withUses usage

end ScriptTypes.Typing
