import ScriptTypes.Proofs.Steps

/-!
# Requests to a session

What a session is asked from outside, one request after the other, and what it goes through while
it answers. A typer that looks at the session each time it is asked, however deep inside, answers
as the typer that does not, if all that it would raise an alarm at never happens.

* `Request`: what may be asked of a session.
* `Session.serve`: the session after some requests.
* `watched`: the typer that looks at the session.
* `steps_serve`: requests change a session by steps only, and leave no function under evaluation and
  no expression that is being typed.
* `outcome_perform_watched`: what holds whenever the typer is asked is not seen by watching.
-/

namespace ScriptTypes.Typing

open Relation (ReflTransGen)

/-- What may be asked of a session over a call graph. -/
inductive Request (graph : CallGraph)
  | infer (node : Node)
  | callbackReturn (argument : Node)
  | literalReturn (function : Node)
  | functionReturn (function : DeclaredFunction) (mem : function ∈ graph.functions)
  | writeSignature (function : DeclaredFunction) (mem : function ∈ graph.functions)
  | bindCallbacks (receiver : Estimate) (method : String) (args : List Node)

/-- Answers a request, given a typer. -/
def Request.perform (scope : Scope) (typer : Node → SessionM Estimate) :
    Request scope.graph → SessionM (Option Estimate)
  | .infer node => some <$> typer node
  | .callbackReturn argument => Typing.callbackReturn scope typer argument
  | .literalReturn function => Typing.literalReturn scope typer function
  | .functionReturn function _ => Typing.functionReturn scope typer function
  | .writeSignature function _ => do
    Typing.writeSignature function
    pure none
  | .bindCallbacks receiver method args => do
    Typing.bindCallbacks typer receiver method args
    pure none

/-- The session after some requests, one after the other. -/
def Session.serve (scope : Scope) (s : Session) (requests : List (Request scope.graph)) : Session :=
  requests.foldl (fun s request => (outcome (request.perform scope (infer scope)) s).2) s

/-- A typer that looks at the session each time it is asked, and raises the alarm if something is
amiss there. Otherwise it goes on like `inferWithin`. -/
def watchedWithin (scope : Scope) (amiss : Session → Bool) (alarm : SessionM Estimate) :
    Nat → Node → SessionM Estimate
  | 0, _ => do
    if amiss (← get) then alarm
    else do
      discard (expired scope)
      pure .unknown
  | room + 1, node => do
    if amiss (← get) then alarm
    else do
      if ← expired scope then pure (structuralWithin (room + 1) node).run
      else
        nested ((sessionForms scope (watchedWithin scope amiss alarm room)).typeOf
          node.unwrapParens)

/-- The typer that looks at the session, with the room that is left there. -/
def watched (scope : Scope) (amiss : Session → Bool) (alarm : SessionM Estimate) (node : Node) :
    SessionM Estimate := do
  watchedWithin scope amiss alarm (maxNesting - (← get).nesting) node

/-! ## Two typers -/

/-- Looking at a session in which nothing is amiss changes nothing. -/
theorem Coupled.calm {α : Type} {Q : Session → Session → Prop} {P : α → Prop}
    {x y alarm : SessionM α} {amiss : Session → Bool} (h : Coupled Q P x y)
    (hcalm : ∀ s t, Q s t → amiss t = false) :
    Coupled Q P x (do if amiss (← get) then alarm else y) := by
  intro s t hst
  rw [outcome_get_bind, hcalm s t hst]
  exact h s t hst

/-- The same session on both sides, reached from a start. -/
def Twins (graph : CallGraph) (start : Session) (nesting : Nat) (stack : List (Option String))
    (s t : Session) : Prop :=
  s = t ∧ Reached graph (fun _ => True) start nesting stack s

section

variable {program : Place} {limits : Limits} {start : Session}

theorem simulation_twins : Simulation ⟨CallGraph.ofProgram program, limits⟩ (Region.whole program)
    (Twins (CallGraph.ofProgram program) start) :=
  simulation_reached ⟨CallGraph.ofProgram program, limits⟩ (Region.whole program) start

/-- With typers that answer alike, a request is answered alike. -/
theorem Typers.perform {nesting : Nat} {typer typer' : Node → SessionM Estimate}
    (hi : Typers ⟨CallGraph.ofProgram program, limits⟩ ⟨CallGraph.ofProgram program, limits⟩
      (Region.whole program) Eq .anything (Twins (CallGraph.ofProgram program) start nesting)
      typer typer' [])
    (request : Request (CallGraph.ofProgram program)) :
    Coupled (Twins (CallGraph.ofProgram program) start nesting []) Standard.anything.MeetsSome
      (request.perform ⟨CallGraph.ofProgram program, limits⟩ typer)
      (request.perform ⟨CallGraph.ofProgram program, limits⟩ typer') := by
  have p : Pairing ⟨CallGraph.ofProgram program, limits⟩ ⟨CallGraph.ofProgram program, limits⟩
      (Region.whole program) Eq .anything (Twins (CallGraph.ofProgram program) start) :=
    simulation_twins.pairing
  have hnone : Coupled (Twins (CallGraph.ofProgram program) start nesting [])
      Standard.anything.MeetsSome (pure none) (pure none) := .pure Standard.meetsSome_none
  cases request with
  | infer node =>
    exact (hi.here trivial (.refl (fun _ => rfl) node)).map fun _ => Standard.meetsSome_some
  | callbackReturn argument => exact p.callbackReturn hi trivial (.refl (fun _ => rfl) argument)
  | literalReturn function => exact p.literalReturn hi trivial (.refl (fun _ => rfl) function)
  | functionReturn function hf => exact p.functionReturn hi hf (.refl (fun _ => rfl) function)
  | writeSignature function hf =>
    refine Coupled.bind (P := fun _ => True) (fun s t hst => ⟨rfl, trivial, ?_⟩) fun _ _ => hnone
    exact p.sign hst hf (by rw [hst.1])
  | bindCallbacks receiver method args =>
    have hargs : List.Forall₂ (Node.Commented Eq) args args :=
      List.forall₂_same.2 fun c _ => .refl (fun _ => rfl) c
    exact (p.bindCallbacks hi hargs (fun _ _ => trivial) (Standard.meets_anything receiver)
      method).bind fun _ _ => hnone

variable {amiss : Session → Bool} {alarm : SessionM Estimate}
variable (hcalm : ∀ nesting stack t,
  Reached (CallGraph.ofProgram program) (fun _ => True) start nesting stack t →
    stack.length ≤ nesting + 1 → amiss t = false)

include hcalm

/-- The typer and the one that looks at the session answer alike, if nothing is ever amiss where no
more functions are under evaluation than expressions are being typed, but one. By induction on the
room: each evaluation stands in an expression of its own. -/
theorem watchedWithin_alike (room nesting : Nat) (stack : List (Option String))
    (hstack : stack.length ≤ nesting + 1) (n n' : Node) (h : n.Commented Eq n') :
    Coupled (Twins (CallGraph.ofProgram program) start nesting stack) Standard.anything.Meets
      (inferWithin ⟨CallGraph.ofProgram program, limits⟩ room n)
      (watchedWithin ⟨CallGraph.ofProgram program, limits⟩ amiss alarm room n') := by
  have p : Pairing ⟨CallGraph.ofProgram program, limits⟩ ⟨CallGraph.ofProgram program, limits⟩
      (Region.whole program) Eq .anything (Twins (CallGraph.ofProgram program) start) :=
    simulation_twins.pairing
  induction room generalizing nesting stack n n' with
  | zero =>
    refine .calm (p.clock.discard.bind fun _ _ => .pure (Standard.meets_anything _)) ?_
    rintro s _ ⟨rfl, hs⟩
    exact hcalm nesting stack s hs hstack
  | succ room ih =>
    have hinside : Typers ⟨CallGraph.ofProgram program, limits⟩
        ⟨CallGraph.ofProgram program, limits⟩ (Region.whole program) Eq .anything
        (Twins (CallGraph.ofProgram program) start (nesting + 1))
        (inferWithin ⟨CallGraph.ofProgram program, limits⟩ room)
        (watchedWithin ⟨CallGraph.ofProgram program, limits⟩ amiss alarm room) stack :=
      ⟨.rfl, fun _ => ih _ stack (by omega) _ _,
        fun function {_ _} _ => ih _ (function :: stack) (by simpa using hstack) _ _⟩
    refine .calm (p.clock.bind fun late _ => .ite (fun _ => ?_) fun _ => p.nested ?_) ?_
    · obtain ⟨heq, hmeets⟩ := structuralWithin_commented .anything (room + 1) h
      rw [← heq]
      exact .pure hmeets
    · exact (p.treats hinside).typeOf trivial h.unwrapParens
    · rintro s _ ⟨rfl, hs⟩
      exact hcalm nesting stack s hs hstack

theorem typers_watched (nesting : Nat) :
    Typers ⟨CallGraph.ofProgram program, limits⟩ ⟨CallGraph.ofProgram program, limits⟩
      (Region.whole program) Eq .anything (Twins (CallGraph.ofProgram program) start nesting)
      (infer ⟨CallGraph.ofProgram program, limits⟩)
      (watched ⟨CallGraph.ofProgram program, limits⟩ amiss alarm) [] := by
  have halike : ∀ stack : List (Option String), stack.length ≤ nesting + 1 →
      ∀ n n' : Node, n.Commented Eq n' →
        Coupled (Twins (CallGraph.ofProgram program) start nesting stack) Standard.anything.Meets
          (infer ⟨CallGraph.ofProgram program, limits⟩ n)
          (watched ⟨CallGraph.ofProgram program, limits⟩ amiss alarm n') := by
    intro stack hstack n n' h
    refine .get_bind ?_
    rintro s _ ⟨rfl, -⟩
    exact ⟨_, _, rfl, rfl, watchedWithin_alike hcalm _ nesting stack hstack n n' h⟩
  exact ⟨.rfl, fun _ => halike [] (by simp) _ _,
    fun function {_ _} _ => halike [function] (by simp) _ _⟩

end

/-! ## Requests -/

section

variable {program : Place} {s : Session}

/-- What is found whenever the typer is asked cannot raise an alarm: watching for anything else
changes neither the answer to a request nor the session. -/
theorem outcome_perform_watched {limits : Limits} (hs : s.active = []) {amiss : Session → Bool}
    (hcalm : ∀ nesting stack t,
      Reached (CallGraph.ofProgram program) (fun _ => True) s nesting stack t →
        stack.length ≤ nesting + 1 → amiss t = false) (alarm : SessionM Estimate)
    (request : Request (CallGraph.ofProgram program)) :
    outcome (request.perform ⟨CallGraph.ofProgram program, limits⟩
        (watched ⟨CallGraph.ofProgram program, limits⟩ amiss alarm)) s =
      outcome (request.perform ⟨CallGraph.ofProgram program, limits⟩
        (infer ⟨CallGraph.ofProgram program, limits⟩)) s := by
  have hstart : Twins (CallGraph.ofProgram program) s s.nesting [] s s :=
    ⟨rfl, rfl, hs, List.nodup_nil, nofun, .refl⟩
  obtain ⟨hanswer, -, hsession, -⟩ :=
    (typers_watched hcalm s.nesting).perform request s s hstart
  exact (Prod.ext hanswer hsession).symm

/-- A request that is made outside all expressions, while no function is under evaluation, changes
the session by steps only and leaves it so. -/
theorem reached_perform (limits : Limits) (hs : s.active = []) (hnesting : s.nesting = 0)
    (request : Request (CallGraph.ofProgram program)) :
    Reached (CallGraph.ofProgram program) (fun _ => True) s 0 []
      (outcome (request.perform ⟨CallGraph.ofProgram program, limits⟩
        (infer ⟨CallGraph.ofProgram program, limits⟩)) s).2 := by
  have hstart : Twins (CallGraph.ofProgram program) s 0 [] s s :=
    ⟨rfl, hnesting, hs, List.nodup_nil, nofun, .refl⟩
  exact (Typers.perform simulation_twins.pairing.typers request s s hstart).2.2.2

/-- So do any number of requests. -/
theorem steps_serve (limits : Limits) (hs : s.active = []) (hnesting : s.nesting = 0)
    (requests : List (Request (CallGraph.ofProgram program))) :
    let after := s.serve ⟨CallGraph.ofProgram program, limits⟩ requests
    after.active = [] ∧ after.nesting = 0 ∧
      ReflTransGen (Step (CallGraph.ofProgram program) fun _ => True) s after := by
  induction requests generalizing s with
  | nil => exact ⟨hs, hnesting, .refl⟩
  | cons request requests ih =>
    have hfirst := reached_perform limits hs hnesting request
    obtain ⟨hactive, hnesting', hsteps⟩ := ih hfirst.active hfirst.nesting
    exact ⟨hactive, hnesting', hfirst.steps.trans hsteps⟩

end

end ScriptTypes.Typing
