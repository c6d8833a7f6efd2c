import ScriptTypes.Typing.Evaluation

/-!
# Runs in step

Two runs of one computation from related sessions that stay related and answer alike. An invariant
of single runs is the case of a relation that holds of equal sessions only.

* `outcome`: the answer of a computation and the session after it.
* `InStep R action`: from sessions related by `R`, the two runs of `action` give the same answer
  and end in sessions related by `R`.
* `Region`: the expressions, functions and names that typing a part of a program gets to.
* `Simulation`: a relation, for each nesting of expressions and each stack of functions under
  evaluation, that the actions of a session keep and that fixes whatever a session looks at.
-/

namespace ScriptTypes

/-- Whether a child may stand for the name of a function rather than for a value: the names of
declarations, the callees of calls, the constructors of new objects, and the functions that
variables are declared with. -/
def Kind.namesFunctions (kind : Kind) : Bool :=
  kind = variableDeclarator || kind = callExpression || kind = newExpression || kind.isFunction

namespace Typing

section

variable {α β : Type}

/-! ## Outcomes -/

/-- The answer of a computation and the session after it. -/
def outcome (action : SessionM α) (s : Session) : α × Session := (action.run s).run

@[simp] theorem outcome_pure (a : α) (s : Session) : outcome (pure a) s = (a, s) := rfl

@[simp] theorem outcome_bind (action : SessionM α) (next : α → SessionM β) (s : Session) :
    outcome (action >>= next) s = outcome (next (outcome action s).1) (outcome action s).2 := rfl

@[simp] theorem outcome_map (f : α → β) (action : SessionM α) (s : Session) :
    outcome (f <$> action) s = (f (outcome action s).1, (outcome action s).2) := rfl

@[simp] theorem outcome_get (s : Session) : outcome get s = (s, s) := rfl

theorem outcome_get_bind (next : Session → SessionM β) (s : Session) :
    outcome (get >>= next) s = outcome (next s) s := rfl

@[simp] theorem outcome_record (name : String) (e : Estimate) (s : Session) :
    outcome (record name e) s =
      ((), { s with returns := s.returns.set name e, answered := (name, e) :: s.answered }) := rfl

theorem get?_returns_record (name : String) (e : Estimate) (s : Session) :
    (outcome (record name e) s).2.returns.get? name = some e := by
  rw [outcome_record, Table.get?_set, if_pos rfl]

@[simp] theorem outcome_enter (name : Option String) (s : Session) :
    outcome (enter name) s = ((), { s with active := name :: s.active }) := rfl

@[simp] theorem outcome_leave (s : Session) :
    outcome leave s = ((), { s with active := s.active.tail }) := rfl

@[simp] theorem outcome_descend (s : Session) :
    outcome descend s = ((), { s with nesting := s.nesting + 1 }) := rfl

@[simp] theorem outcome_ascend (s : Session) :
    outcome ascend s = ((), { s with nesting := s.nesting - 1 }) := rfl

@[simp] theorem outcome_nested (action : SessionM α) (s : Session) :
    outcome (nested action) s =
      ((outcome action { s with nesting := s.nesting + 1 }).1,
        (outcome ascend (outcome action { s with nesting := s.nesting + 1 }).2).2) := rfl

@[simp] theorem outcome_expired (scope : Scope) (s : Session) :
    outcome (expired scope) s =
      (scope.limits.expired s.readings, { s with readings := s.readings + 1 }) := rfl

/-- The clock is read unless the evaluation would go too deep. -/
theorem outcome_refused (scope : Scope) (s : Session) :
    outcome (refused scope) s =
      if scope.limits.maxDepth < s.active.length + 1 then (true, s)
      else outcome (expired scope) s := by
  unfold refused
  rw [outcome_get_bind]
  split <;> rfl

/-- From the empty stack an evaluation is refused for want of time only, if any depth is allowed. -/
theorem outcome_refused_of_idle {scope : Scope} (hdepth : 0 < scope.limits.maxDepth) {s : Session}
    (hs : s.active = []) : outcome (refused scope) s = outcome (expired scope) s := by
  have hroom : ¬scope.limits.maxDepth < s.active.length + 1 := by
    rw [hs, List.length_nil]
    omega
  rw [outcome_refused, if_neg hroom]

/-- Asking whether an evaluation is refused does nothing but read the clock. -/
theorem refused_frame (scope : Scope) (s : Session) :
    ∃ readings, (outcome (refused scope) s).2 = { s with readings := readings } := by
  rw [outcome_refused]
  split
  · exact ⟨s.readings, rfl⟩
  · exact ⟨s.readings + 1, rfl⟩

/-- When the time is used up, an expression is typed structurally. -/
theorem outcome_inferWithin_of_expired {scope : Scope} {s : Session}
    (h : scope.limits.expired s.readings = true) (room : Nat) (n : Node) :
    outcome (inferWithin scope room n) s =
      ((structuralWithin room n).run, { s with readings := s.readings + 1 }) := by
  cases room with
  | zero => rfl
  | succ room =>
    rw [inferWithin, outcome_bind, outcome_expired, h]
    rfl

/-- While there is time, it is typed by its form. -/
theorem outcome_inferWithin_of_not_expired {scope : Scope} {s : Session}
    (h : scope.limits.expired s.readings = false) (room : Nat) (n : Node) :
    outcome (inferWithin scope (room + 1) n) s =
      outcome (nested ((sessionForms scope (inferWithin scope room)).typeOf n.unwrapParens))
        { s with readings := s.readings + 1 } := by
  rw [inferWithin, outcome_bind, outcome_expired, h]
  rfl

theorem outcome_writeSignature (f : DeclaredFunction) (s : Session) :
    outcome (writeSignature f) s =
      ((), match s.returns.get? f.name with
        | none => s
        | some returned =>
          { s with types := s.types.assign f.name (signatureOf s.types f returned) true }) := by
  unfold writeSignature
  rw [outcome_get_bind]
  cases s.returns.get? f.name <;> rfl

/-- An asynchronous function returns a promise. -/
theorem isPromise_bodyReturn (infer : Node → SessionM Estimate) (n : Node) (isAsync : Bool)
    (s : Session) (h : isAsync = true) :
    (outcome (bodyReturn infer n isAsync) s).1.type.isPromise = true := by
  unfold bodyReturn
  rw [outcome_bind, outcome_pure, h]
  dsimp only
  split
  · rfl
  · rename_i hpromise
    simpa using hpromise

/-- Writing a signature changes the types of names only. -/
theorem writeSignature_frame (f : DeclaredFunction) (s : Session) :
    (outcome (writeSignature f) s).2.returns = s.returns ∧
      (outcome (writeSignature f) s).2.answered = s.answered := by
  rw [outcome_writeSignature]
  cases s.returns.get? f.name <;> exact ⟨rfl, rfl⟩

section

variable (infer : Node → SessionM Estimate) (f : DeclaredFunction) (s : Session)

/-- A function that was evaluated has its result noted. -/
theorem returns_evaluate : (outcome (evaluate infer f) s).2.returns.get? f.name =
    some (outcome (evaluate infer f) s).1 := by
  unfold evaluate
  simp only [outcome_bind, outcome_pure, (writeSignature_frame f _).1, get?_returns_record]

/-- A function that was evaluated is answered. -/
theorem answered_evaluate : (outcome (evaluate infer f) s).2.answered.get? f.name =
    some (outcome (evaluate infer f) s).1 := by
  unfold evaluate
  simp only [outcome_bind, outcome_pure, (writeSignature_frame f _).2, outcome_record,
    Entries.get?, if_true]

end

/-- The result of a function, if it is held firmly enough to be final. -/
def finalReturn? (known : Knowledge) (f : DeclaredFunction) : Option Estimate :=
  (known.returns.get? f.name).filter (Confidence.resolvedReturn ≤ ·.confidence)

/-- The function of a name was not evaluated in the session, and its result is not final. -/
structure Unanswered (s : Session) (name : String) : Prop where
  answered : s.answered.get? name = none
  final : (s.returns.get? name).filter (Confidence.resolvedReturn ≤ ·.confidence) = none

/-- That depends neither on the types of names nor on the counters and the stack. -/
theorem Unanswered.congr {s t : Session} {name : String} (h : Unanswered s name)
    (hanswered : t.answered = s.answered) (hreturns : t.returns = s.returns) :
    Unanswered t name :=
  ⟨by rw [hanswered, h.answered], by rw [hreturns, h.final]⟩

/-- Nor on the results of other functions. -/
theorem unanswered_record_iff {s : Session} {name other : String} (e : Estimate)
    (h : name ≠ other) : Unanswered (outcome (record name e) s).2 other ↔ Unanswered s other := by
  have hanswered : Entries.get? ((name, e) :: s.answered) other = s.answered.get? other := if_neg h
  have hreturns := s.returns.get?_set_of_ne h e
  constructor
  · intro hopen
    rw [outcome_record] at hopen
    exact ⟨hanswered.symm.trans hopen.answered, by rw [← hreturns]; exact hopen.final⟩
  · intro hopen
    rw [outcome_record]
    exact ⟨hanswered.trans hopen.answered, by rw [hreturns]; exact hopen.final⟩

/-- Asking for the result of a function changes the session only where the function is to be
evaluated: it is not under evaluation, was not answered, and its result is not final. If it is
refused then, nothing but the clock was read. -/
theorem outcome_functionReturn (scope : Scope) (infer : Node → SessionM Estimate)
    (f : DeclaredFunction) (s : Session) :
    outcome (functionReturn scope infer f) s =
      if some f.name ∈ s.active then (none, s)
      else
        match s.answered.get? f.name, finalReturn? s.toKnowledge f with
        | some returned, _ => (some returned, s)
        | none, some returned => (some returned, s)
        | none, none =>
          if (outcome (refused scope) s).1 then (none, (outcome (refused scope) s).2)
          else
            (some (outcome (evaluate infer f) (outcome (refused scope) s).2).1,
              (outcome (evaluate infer f) (outcome (refused scope) s).2).2) := by
  unfold functionReturn finalReturn?
  rw [outcome_get_bind]
  by_cases hactive : some f.name ∈ s.active
  · rw [if_pos hactive, if_pos hactive, outcome_pure]
  · rw [if_neg hactive, if_neg hactive]
    cases s.answered.get? f.name with
    | some returned => rfl
    | none =>
      cases (s.returns.get? f.name).filter (Confidence.resolvedReturn ≤ ·.confidence) with
      | some returned => rfl
      | none =>
        dsimp only
        rw [outcome_bind]
        split <;> rfl

/-! ## In step -/

/-- From related sessions the computation gives the same answer and ends in related sessions. -/
def InStep (R : Session → Session → Prop) (action : SessionM α) : Prop :=
  ∀ s t, R s t →
    (outcome action s).1 = (outcome action t).1 ∧ R (outcome action s).2 (outcome action t).2

namespace InStep

variable {R : Session → Session → Prop} {action : SessionM α}

theorem pure (a : α) : InStep R (Pure.pure a : SessionM α) := fun _ _ h => ⟨rfl, h⟩

theorem bind {next : α → SessionM β} (h : InStep R action) (hn : ∀ a, InStep R (next a)) :
    InStep R (action >>= next) := by
  intro s t hst
  obtain ⟨ha, hs⟩ := h s t hst
  rw [outcome_bind, outcome_bind, ← ha]
  exact hn _ _ _ hs

theorem forM {items : List α} {body : α → SessionM PUnit}
    (h : ∀ item ∈ items, InStep R (body item)) : InStep R (items.forM body) := by
  induction items with
  | nil => exact pure _
  | cons item items ih =>
    show InStep R (body item >>= fun _ => items.forM body)
    exact (h item (by simp)).bind fun _ => ih fun other ho => h other (by simp [ho])

end InStep

end

/-! ## Regions -/

/-- What typing a part of a program gets to: the expressions that may be typed, the functions that
may be evaluated, the targets that may be bound, the names that may be looked up, and those that
may be offered an estimate. -/
structure Region (graph : CallGraph) where
  typed : Node → Prop
  evaluated : Node → Prop
  bound : Node → Prop
  read : String → Prop
  offered : String → Prop
  typed_unwrapParens {n : Node} : typed n → typed n.unwrapParens
  typed_operand {n c : Node} : typed n → n.kind.namesFunctions = false → c ∈ n.operands →
    typed c
  typed_child {n c : Node} {field : Field} : typed n → n.kind.namesFunctions = false →
    n.child? field = some c → typed c
  typed_argument {n c : Node} : typed n → c ∈ n.callArguments → typed c
  typed_callee {n c : Node} : typed n → n.child? .callee = some c →
    c.unwrapParens.kind = .memberExpression → typed c.unwrapParens
  typed_return {n c : Node} : evaluated n → c ∈ n.returnExpressions → typed c
  typed_resolved {n c : Node} {name : String} : evaluated n → c ∈ resolvedValues n name → typed c
  evaluated_literal {n : Node} : typed n → n.kind.isFunctionLiteral = true → evaluated n
  evaluated_callee {n c : Node} : typed n → n.child? .callee = some c →
    c.unwrapParens.kind.isFunctionLiteral = true → evaluated c.unwrapParens
  evaluated_function {f : DeclaredFunction} : f ∈ graph.functions → evaluated f.node
  params_function {f : DeclaredFunction} : f ∈ graph.functions → f.params = f.node.params
  read_identifier {n : Node} {name : String} : typed n → n.kind = .identifier →
    n.text = some name → read name
  read_shorthand {n : Node} {name : String} : typed n → n.kind = .shorthandProperty →
    n.text = some name → read name
  read_literal {n : Node} {f : DeclaredFunction} : typed n → n.kind.isFunctionLiteral = true →
    graph.functionAt? n = some f → read f.name
  read_callee {n c : Node} {name : String} : typed n → n.child? .callee = some c →
    c.unwrapParens.kind = .identifier → c.unwrapParens.text = some name →
    graph.function? name = none → read name
  read_param {n : Node} {p : Param} {name : String} : evaluated n → p ∈ n.params →
    p.name = some name → read name
  offered_param {n : Node} {p : Param} {name : String} : evaluated n → p ∈ n.params →
    p.name = some name → offered name
  offered_bound {n : Node} {name : String} : bound n →
    n.kind = .identifier ∨ n.kind = .shorthandPattern → n.text = some name → offered name
  typed_default {n c : Node} : bound n →
    n.kind = .assignmentPattern ∨ n.kind = .objectAssignmentPattern → n.child? .right = some c →
    typed c
  bound_left {n c : Node} : bound n →
    n.kind = .assignmentPattern ∨ n.kind = .objectAssignmentPattern → n.child? .left = some c →
    bound c
  bound_value {n c : Node} : bound n → n.kind = .pairPattern → n.child? .value = some c → bound c
  bound_operand {n c : Node} : bound n →
    n.kind = .objectPattern ∨ n.kind = .arrayPattern ∨ n.kind = .restPattern → c ∈ n.operands →
    bound c

/-- The parameters of a function of the graph are read. -/
theorem Region.read_params {graph : CallGraph} (region : Region graph) {f : DeclaredFunction}
    (hf : f ∈ graph.functions) {p : Param} (hp : p ∈ f.params) {name : String}
    (hname : p.name = some name) : region.read name := by
  rw [region.params_function hf] at hp
  exact region.read_param (region.evaluated_function hf) hp hname

/-- The region holds what a round over a program starts from: its calls, the arguments of the calls
by name, and its declarations. A function that is declared by a variable need not be typed there. -/
structure Region.Covers {graph : CallGraph} (region : Region graph) (root : Node) : Prop where
  call {n : Node} : n ∈ root.preorder → n.kind = .callExpression → region.typed n
  argument {site : CallSite} {c : Node} : site ∈ graph.sites → c ∈ site.node.callArguments →
    region.typed c
  value {n target v : Node} : n ∈ root.preorder → n.kind = .variableDeclarator →
    n.child? .name = some target → n.child? .value = some v →
    (target.kind.isDestructuring = false → ∀ name, target.text = some name →
      (v.unwrapParens.kind.isFunctionLiteral && graph.declares name) = false) →
    region.typed v.unwrapParens
  declared {n target : Node} {name : String} : n ∈ root.preorder → n.kind = .variableDeclarator →
    n.child? .name = some target → target.kind.isDestructuring = false →
    target.text = some name → region.offered name
  pattern {n target : Node} : n ∈ root.preorder → n.kind = .variableDeclarator →
    n.child? .name = some target → target.kind.isDestructuring = true → region.bound target

/-! ## Simulations -/

/-- A relation between sessions, for each nesting of expressions and each stack of functions under
evaluation, that the actions of a session keep and that fixes what a session looks at: the clock,
the names that are read, the functions that were answered, and the results that are final. The other
results may differ until the function is evaluated, which it is unless evaluations are refused. A
declared function comes onto the stack once, while it has no answer, and its result is noted when it
leaves. -/
structure Simulation (scope : Scope) (region : Region scope.graph)
    (R : Nat → List (Option String) → Session → Session → Prop) : Prop where
  nesting {nesting : Nat} {stack : List (Option String)} {s t : Session} : R nesting stack s t →
    s.nesting = nesting ∧ t.nesting = nesting
  active {nesting : Nat} {stack : List (Option String)} {s t : Session} : R nesting stack s t →
    s.active = stack ∧ t.active = stack
  types {nesting : Nat} {stack : List (Option String)} {s t : Session} {name : String} :
    R nesting stack s t → region.read name → s.types.get? name = t.types.get? name
  answered {nesting : Nat} {stack : List (Option String)} {s t : Session} {f : DeclaredFunction} :
    R nesting stack s t → f ∈ scope.graph.functions →
      s.answered.get? f.name = t.answered.get? f.name
  final {nesting : Nat} {stack : List (Option String)} {s t : Session} {f : DeclaredFunction} :
    R nesting stack s t → f ∈ scope.graph.functions →
      finalReturn? s.toKnowledge f = finalReturn? t.toKnowledge f
  returned {nesting : Nat} {s t : Session} {f : DeclaredFunction} : R nesting [] s t →
    f ∈ scope.graph.functions →
      (s.answered.get? f.name).isSome ∨ (outcome (refused scope) s).1 = true →
      s.returns.get? f.name = t.returns.get? f.name
  clock {nesting : Nat} {stack : List (Option String)} : InStep (R nesting stack) (expired scope)
  descend {nesting : Nat} {stack : List (Option String)} {s t : Session} : R nesting stack s t →
    R (nesting + 1) stack (outcome descend s).2 (outcome descend t).2
  ascend {nesting : Nat} {stack : List (Option String)} {s t : Session} :
    R (nesting + 1) stack s t → R nesting stack (outcome ascend s).2 (outcome ascend t).2
  enter {nesting : Nat} {stack : List (Option String)} {s t : Session} {f : DeclaredFunction} :
    R nesting stack s t → f ∈ scope.graph.functions → some f.name ∉ stack → Unanswered s f.name →
      R nesting (some f.name :: stack) (outcome (enter (some f.name)) s).2
        (outcome (enter (some f.name)) t).2
  finish {nesting : Nat} {stack : List (Option String)} {s t : Session} {f : DeclaredFunction}
    (e : Estimate) : R nesting (some f.name :: stack) s t → f ∈ scope.graph.functions →
      some f.name ∉ stack → (f.isAsync = true → e.type.isPromise = true) →
      R nesting stack (outcome (leave *> record f.name e) s).2
        (outcome (leave *> record f.name e) t).2
  enterLiteral {nesting : Nat} {stack : List (Option String)} {s t : Session} :
    R nesting stack s t → R nesting (none :: stack) (outcome (Typing.enter none) s).2
      (outcome (Typing.enter none) t).2
  leaveLiteral {nesting : Nat} {stack : List (Option String)} {s t : Session} :
    R nesting (none :: stack) s t → R nesting stack (outcome leave s).2 (outcome leave t).2
  offer {nesting : Nat} {stack : List (Option String)} {name : String} (e : Estimate) :
    region.offered name → InStep (R nesting stack) (assign name e false)
  sign {nesting : Nat} {stack : List (Option String)} {s t : Session} {f : DeclaredFunction} :
    R nesting stack s t → f ∈ scope.graph.functions →
      s.returns.get? f.name = t.returns.get? f.name →
      R nesting stack (outcome (writeSignature f) s).2 (outcome (writeSignature f) t).2

end Typing

end ScriptTypes
