import ScriptTypes.Proofs.Pairing.Resolution

/-!
# Rounds run in step

A simulation pairs the sessions over one program: no comments are put in, and everything meets the
standard. So whatever two sessions do side by side is done in step.

* `Simulation.pairing`: a simulation as a pairing.
* `Simulation.functionReturn`: asking what a function returns, with all that its evaluation does.
* `Simulation.session`: all that a round does in its session.
-/

namespace ScriptTypes.Typing

theorem Coupled.inStep {α : Type} {Q : Session → Session → Prop} {P : α → Prop}
    {action : SessionM α} (h : Coupled Q P action action) : InStep Q action := by
  intro s t hst
  obtain ⟨heq, -, hst'⟩ := h s t hst
  exact ⟨heq, hst'⟩

/-- The types of parameters are those of their names. -/
theorem paramTypes_congr {types others : TypeMap} {params : List Param}
    (h : ∀ p ∈ params, ∀ x, p.name = some x → types.get? x = others.get? x) :
    paramTypes types params = paramTypes others params := by
  have hp : List.Forall₂ (Param.Commented Eq) params params :=
    List.forall₂_same.2 fun p _ => .refl (fun _ => rfl) p
  exact (paramTypes_commented hp h).symm

/-- A signature depends on what is held of the function and of its parameters. -/
theorem signatureOf_congr {types others : TypeMap} {f : DeclaredFunction}
    (hname : types.get? f.name = others.get? f.name)
    (hparams : ∀ p ∈ f.params, ∀ x, p.name = some x → types.get? x = others.get? x)
    (returned : Estimate) : signatureOf types f returned = signatureOf others f returned := by
  unfold signatureOf signature
  rw [hname, paramTypes_congr hparams]

namespace Simulation

variable {scope : Scope} {region : Region scope.graph}
variable {R : Nat → List (Option String) → Session → Session → Prop}
variable (sim : Simulation scope region R)

include sim

/-- A simulation pairs the sessions over one program. -/
theorem pairing : Pairing scope scope region Eq .anything R where
  depth _ := .rfl
  function? h := ⟨_, h, .refl (fun _ => rfl) _⟩
  function?_none h _ := h
  functionAt? _ _ h :=
    CallGraph.functionAt?_commented biUnique_eq scope.graph.functions_commented h
  nesting := sim.nesting
  active := sim.active
  types h hr := ⟨sim.types h hr, fun e _ => Standard.meets_anything e⟩
  answered h hf := ⟨sim.answered h hf, fun e _ => Standard.meets_anything e⟩
  final h hf := ⟨sim.final h hf, fun e _ => Standard.meets_anything e⟩
  returned := sim.returned
  clock := fun s t hst => ⟨(sim.clock s t hst).1, trivial, (sim.clock s t hst).2⟩
  descend := sim.descend
  ascend := sim.ascend
  enter := sim.enter
  finish h hf hstack _ hasync := sim.finish _ h hf hstack hasync
  enterLiteral := sim.enterLiteral
  leaveLiteral := sim.leaveLiteral
  offer h ho _ := (sim.offer _ ho _ _ h).2
  sign := sim.sign

theorem functionReturn {f : DeclaredFunction} (hf : f ∈ scope.graph.functions) :
    InStep (R 0 []) (functionReturn scope (Typing.infer scope) f) :=
  (sim.pairing.functionReturn sim.pairing.typers hf (.refl (fun _ => rfl) f)).inStep

section

variable {root : Node} (cover : region.Covers root)

include cover

theorem propagate : InStep (R 0 []) (propagate scope root) :=
  (sim.pairing.passing.propagate cover (.refl (fun _ => rfl) root)).inStep

theorem refineSite {site : CallSite} (hsite : site ∈ scope.graph.sites) :
    InStep (R 0 []) (refineSite scope site) :=
  (sim.pairing.passing.refineSite (.refl (fun _ => rfl) site)
    (fun _ hc => cover.argument hsite hc) (fun _ _ e _ => Standard.meets_anything e) id).inStep

end

/-- A result that is final on one side is the same on the other. -/
theorem returns_of_final {f : DeclaredFunction} (hf : f ∈ scope.graph.functions) {s t : Session}
    {nesting : Nat} {stack : List (Option String)} (hst : R nesting stack s t) {e : Estimate}
    (he : finalReturn? s.toKnowledge f = some e) :
    s.returns.get? f.name = t.returns.get? f.name := sim.pairing.returns_of_final hf hst he

/-- What the two sessions hold of a function's result agrees once it was asked for from the empty
stack. -/
theorem returns_functionReturn {f : DeclaredFunction} (hf : f ∈ scope.graph.functions)
    {s t : Session} (hst : R 0 [] s t) :
    (outcome (Typing.functionReturn scope (Typing.infer scope) f) s).2.returns.get? f.name =
      (outcome (Typing.functionReturn scope (Typing.infer scope) f) t).2.returns.get? f.name :=
  sim.pairing.returns_functionReturn hf (.refl (fun _ => rfl) f) hst

theorem refineFunction {f : DeclaredFunction} (hf : f ∈ scope.graph.functions) :
    InStep (R 0 []) (refineFunction scope f) :=
  (sim.pairing.refineFunction hf (.refl (fun _ => rfl) f)).inStep

/-- All that a round does in its session. -/
theorem session {root : Node} (cover : region.Covers root) :
    InStep (R 0 []) (Typing.propagate scope root *> Typing.refineCalls scope) :=
  (sim.pairing.session_self cover fun _ _ _ _ e _ => Standard.meets_anything e).inStep

end Simulation

theorem types_resolve (scope : Scope) (root : Node) (usage : Usage) (known : Knowledge) :
    (resolve scope root usage known).types = usage.fold (roundSession scope root known).types := rfl

end ScriptTypes.Typing
