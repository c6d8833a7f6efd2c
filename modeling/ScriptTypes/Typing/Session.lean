import ScriptTypes.Budget
import ScriptTypes.CallGraph
import ScriptTypes.TypeMap

/-!
# Sessions

A session types the expressions of a program against what is known of its names. It evaluates the
functions of the call graph when their result is asked for, remembers the answers, and writes what
it learns into the map. The state of a session changes by these actions only:

* `assign`: offers an estimate for a name.
* `record`: notes what a function returns.
* `enter` and `leave`: around the evaluation of a function.
* `descend` and `ascend`: around the typing of an expression.
* `expired`: reads the clock.
-/

namespace ScriptTypes.Typing

/-- What is known of a program: the types of names, and what its functions return. -/
structure Knowledge where
  types : TypeMap
  returns : Table Estimate

/-- The state of a session. `answered` lists the functions evaluated in it with their results, the
latest first; `active` those under evaluation, the innermost first, with `none` for a function
without a name. `nesting` counts the expressions that are being typed inside each other, and
`readings` how often the clock was read. -/
structure Session extends Knowledge where
  answered : Entries Estimate
  active : List (Option String)
  nesting : Nat
  readings : Nat

/-- A session that has done nothing yet. -/
def Session.start (known : Knowledge) : Session :=
  { known with answered := [], active := [], nesting := 0, readings := 0 }

/-- What a session works on, and how far it may go. -/
structure Scope where
  graph : CallGraph
  limits : Limits

/-- The scope once the clock was read so often. -/
def Scope.later (scope : Scope) (readings : Nat) : Scope :=
  { scope with limits := scope.limits.later readings }

/-- A computation in a session. -/
abbrev SessionM := StateM Session

/-! ## Actions -/

/-- Offers an estimate for a name. -/
def assign (name : String) (estimate : Estimate) (replaceEqual : Bool) : SessionM Unit :=
  modify fun s => { s with types := s.types.assign name estimate replaceEqual }

/-- Notes what a function returns. -/
def record (function : String) (returned : Estimate) : SessionM Unit :=
  modify fun s =>
    { s with
      returns := s.returns.set function returned
      answered := (function, returned) :: s.answered }

/-- Begins the evaluation of a function. -/
def enter (function : Option String) : SessionM Unit :=
  modify fun s => { s with active := function :: s.active }

/-- Ends the evaluation of the innermost function. -/
def leave : SessionM Unit := modify fun s => { s with active := s.active.tail }

/-- Evaluates a function inside which its own result is not asked for again. -/
def evaluating {α : Type} (function : Option String) (action : SessionM α) : SessionM α := do
  enter function
  let result ← action
  leave
  pure result

/-- Goes into an expression. -/
def descend : SessionM Unit := modify fun s => { s with nesting := s.nesting + 1 }

/-- Comes out of the innermost expression. -/
def ascend : SessionM Unit := modify fun s => { s with nesting := s.nesting - 1 }

/-- Types what stands inside an expression. -/
def nested {α : Type} (action : SessionM α) : SessionM α := do
  descend
  let result ← action
  ascend
  pure result

/-- Reads the clock: whether the time is used up. -/
def expired (scope : Scope) : SessionM Bool :=
  modifyGet fun s => (scope.limits.expired s.readings, { s with readings := s.readings + 1 })

/-! ## Signatures -/

/-- The types of the parameters up to the first rest parameter, and the type of that one. -/
def paramTypes (types : TypeMap) : List Param → List Ty × Option Ty
  | [] => ([], none)
  | param :: params =>
    let known := param.name.bind types.get?
    if param.isRest then ([], some (known.elim (.array .any) (·.type)))
    else
      let (positional, rest) := paramTypes types params
      (known.elim .any (·.type) :: positional, rest)

/-- The signature of a function with these parameters and this result. -/
def signature (types : TypeMap) (params : List Param) (returns : Ty) : Ty :=
  let (positional, rest) := paramTypes types params
  .fn positional returns rest

/-- The estimate of a function's own name, from what it returns and what is held of the name. -/
def signatureOf (types : TypeMap) (function : DeclaredFunction) (returned : Estimate) : Estimate :=
  let fromReturn := max .signatureMin returned.confidence
  let confidence :=
    match types.get? function.name with
    | some current =>
      if current.type.isFunctionLike then max fromReturn current.confidence else fromReturn
    | none => fromReturn
  .of (signature types function.params returned.type) (min .signatureMax confidence)

/-- Writes the signature of a function, if it is known what it returns. -/
def writeSignature (function : DeclaredFunction) : SessionM Unit := do
  let s ← get
  match s.returns.get? function.name with
  | none => pure ()
  | some returned => assign function.name (signatureOf s.types function returned) true

end ScriptTypes.Typing
