import ScriptTypes.Proofs.Settling

/-!
# Every function is signed in every round

At the end of a round each function is asked for while no function is under evaluation, so that
neither the depth nor a cycle keeps it from being evaluated. Its result is noted, its signature is
written, and nothing that follows undoes either.

* `Estimate.StandsFor`: what the name of a function may be held for, given its result.
* `Signed`: the result of a function and what its name is held for.
* `signed_step`, `signed_steps`: no step undoes a signature.
* `exists_asked_refineFunction`: a function is refined by writing its signature.
* `roundSession_establish`: what refining a function brings about and no step undoes.
* `Promising`: the results of asynchronous functions are promises.
* `functions_resolved`: what a round leaves of each function.
-/

namespace ScriptTypes

open Typing Relation

/-! ## Estimates -/

/-- What a signature is worth, by the confidence of the result. -/
def Confidence.ofResult (c : Confidence) : Confidence := min (.percent 95) (max (.percent 60) c)

/-- The name of a function with this result is held for a function at least as firmly as the result
allows, or for anything more firmly than that. -/
structure Estimate.StandsFor (held returned : Estimate) : Prop where
  le : returned.confidence.ofResult ≤ held.confidence
  signature_or_lt : held.type.isSignature = true ∨ returned.confidence.ofResult < held.confidence

theorem Estimate.StandsFor.of_lt {held returned : Estimate}
    (h : returned.confidence.ofResult < held.confidence) : held.StandsFor returned :=
  ⟨le_of_lt h, .inr h⟩

/-- Whatever replaces an estimate in the course of rounds stands for as much. -/
theorem Estimate.StandsFor.replaced {declared : Bool} {old new returned : Estimate}
    (h : old.StandsFor returned) (hr : Estimate.Replaces declared old new) :
    new.StandsFor returned := by
  cases hr with
  | same => exact h
  | surer hlt => exact .of_lt (lt_of_le_of_lt h.le hlt)
  | signed _ hsignature hconfidence _ => exact ⟨hconfidence ▸ h.le, .inl hsignature⟩

namespace Typing

variable {graph : CallGraph} {offered : String → Prop} {scope : Scope} {s t : Session}
variable {f : DeclaredFunction} {returned : Estimate}

/-! ## Signatures -/

theorem ofResult_le_signatureOf (types : TypeMap) (f : DeclaredFunction) (returned : Estimate) :
    returned.confidence.ofResult ≤ (signatureOf types f returned).confidence := by
  have hmin : ∀ c, max .signatureMin returned.confidence ≤ c →
      returned.confidence.ofResult ≤ min .signatureMax c := fun c hc =>
    le_min (min_le_left _ _) (le_trans (min_le_right _ _) hc)
  unfold signatureOf
  dsimp only [Estimate.of]
  refine hmin _ ?_
  split
  · split
    · exact le_max_left _ _
    · exact le_refl _
  · exact le_refl _

/-- A function has a result that is not evaluated again, and its name stands for it. -/
structure Signed (s : Session) (f : DeclaredFunction) (returned : Estimate) : Prop where
  answered : ¬Unanswered s f.name
  returns : s.returns.get? f.name = some returned
  held : ∃ held, s.types.get? f.name = some held ∧ held.StandsFor returned

/-- Writing the signature of a function that has a result. -/
theorem signed_writeSignature (hanswered : ¬Unanswered s f.name)
    (hreturns : s.returns.get? f.name = some returned) :
    Signed (outcome (writeSignature f) s).2 f returned := by
  have hsignature : (signatureOf s.types f returned).StandsFor returned :=
    ⟨ofResult_le_signatureOf _ _ _, .inl rfl⟩
  rw [outcome_writeSignature, hreturns]
  refine ⟨fun h => hanswered (h.congr rfl rfl), hreturns, _,
    (TypeMap.get?_assign _ _ _ _ _).trans (if_pos rfl), ?_⟩
  unfold Estimate.merge
  split
  · exact hsignature
  · rename_i hold
    cases hname : s.types.get? f.name with
    | none => exact hsignature
    | some old =>
      rw [hname] at hold
      refine .of_lt (lt_of_le_of_lt hsignature.le ?_)
      refine lt_of_not_ge fun hle => ?_
      refine hold ?_
      simp only [Estimate.supersedes, Bool.true_and, Bool.or_eq_true, decide_eq_true_eq]
      exact lt_or_eq_of_le hle

/-- No step undoes a signature: the result is not written again, and what is held of a name is only
refined. -/
theorem signed_step (h : Step graph offered s t) (hs : Signed s f returned) :
    Signed t f returned := by
  obtain ⟨hanswered, hreturns, held, hheld, hstands⟩ := hs
  obtain ⟨new, hnew, hreplaces⟩ := refines_step h f.name held hheld
  have htypes := hstands.replaced hreplaces
  cases h with
  | offer | sign | bookkeep =>
    exact ⟨fun h => hanswered (h.congr rfl rfl), hreturns, new, hnew, htypes⟩
  | @record g value _ hopen =>
    have hne : g.name ≠ f.name := fun heq => hanswered (heq ▸ hopen)
    exact ⟨fun h => hanswered ((unanswered_record_iff value hne).1 h),
      (Table.get?_set_of_ne hne _ value).trans hreturns, new, hnew, htypes⟩

theorem signed_steps (h : ReflTransGen (Step graph offered) s t) (hs : Signed s f returned) :
    Signed t f returned := by
  induction h with
  | refl => exact hs
  | tail _ hstep ih => exact signed_step hstep ih

/-! ## Refining functions -/

/-- All that a session answered is noted among the results. -/
def Noted (s : Session) : Prop :=
  ∀ name e, s.answered.get? name = some e → s.returns.get? name = some e

theorem noted_start (known : Knowledge) : Noted (Session.start known) := by
  intro name e he
  cases he

theorem noted_step (h : Step graph offered s t) (hs : Noted s) : Noted t := by
  cases h with
  | offer | sign | bookkeep => exact hs
  | record e _ =>
    intro name value hvalue
    rw [Entries.get?] at hvalue
    rw [Table.get?_set]
    split at hvalue
    · rename_i hname
      rw [if_pos hname]
      exact hvalue
    · rename_i hname
      rw [if_neg hname]
      exact hs name value hvalue

theorem noted_steps (h : ReflTransGen (Step graph offered) s t) (hs : Noted s) : Noted t := by
  induction h with
  | refl => exact hs
  | tail _ hstep ih => exact noted_step hstep ih

/-- A function that is asked for from the empty stack has a result afterwards, whatever it calls. -/
theorem exists_result_functionReturn (hample : scope.limits.Ample) (hs : Noted s)
    (hactive : s.active = []) :
    let asked := (outcome (functionReturn scope (infer scope) f) s).2
    ¬Unanswered asked f.name ∧ ∃ e, asked.returns.get? f.name = some e := by
  rw [outcome_functionReturn, hactive, if_neg List.not_mem_nil]
  cases hanswered : s.answered.get? f.name with
  | some e =>
    refine ⟨fun h => ?_, e, hs f.name e hanswered⟩
    exact absurd (hanswered.symm.trans h.answered) nofun
  | none =>
    cases hfinal : finalReturn? s.toKnowledge f with
    | some e =>
      refine ⟨fun h => ?_, e, (Option.filter_eq_some_iff.1 hfinal).1⟩
      exact absurd (hfinal.symm.trans h.final) nofun
    | none =>
      dsimp only
      rw [hample.refused hactive]
      refine ⟨fun h => ?_, _, returns_evaluate _ _ _⟩
      exact absurd ((answered_evaluate _ _ _).symm.trans h.answered) nofun

/-- Refining a function comes down to writing its signature in a session that has its result. -/
theorem exists_asked_refineFunction {region : Region scope.graph} {start : Session}
    (hample : scope.limits.Ample) (hstart : Noted start)
    (hf : f ∈ scope.graph.functions) (hs : Reached scope.graph region.offered start 0 [] s) :
    ∃ asked returned, Reached scope.graph region.offered start 0 [] asked ∧
      ¬Unanswered asked f.name ∧ asked.returns.get? f.name = some returned ∧
      outcome (refineFunction scope f) s = outcome (writeSignature f) asked := by
  rw [outcome_refineFunction]
  split
  · rename_i hsome
    obtain ⟨e, he⟩ := Option.isSome_iff_exists.1 hsome
    refine ⟨s, e, hs, fun h => ?_, (Option.filter_eq_some_iff.1 he).1, rfl⟩
    exact absurd (he.symm.trans h.final) nofun
  · obtain ⟨hanswered, e, he⟩ :=
      exists_result_functionReturn (f := f) hample (noted_steps hs.steps hstart) hs.active
    have sim := simulation_reached scope region start
    exact ⟨_, e, (sim.functionReturn hf s s ⟨rfl, hs⟩).2.2, hanswered, he, rfl⟩

section

variable {region : Region scope.graph} {start : Session} {functions : List DeclaredFunction}
variable (hfunctions : ∀ f ∈ functions, f ∈ scope.graph.functions)

include hfunctions

theorem reached_refineFunctions (hs : Reached scope.graph region.offered start 0 [] s) :
    Reached scope.graph region.offered start 0 []
      (outcome (functions.forM (refineFunction scope)) s).2 := by
  have sim := simulation_reached scope region start
  have hforM := InStep.forM fun f hf => sim.refineFunction (hfunctions f hf)
  exact (hforM s s ⟨rfl, hs⟩).2.2

/-- What refining a function brings about and no step undoes holds of each function after some were
refined. -/
theorem refineFunctions_establish {P : DeclaredFunction → Session → Prop}
    (hrefine : ∀ f ∈ functions, ∀ s, Reached scope.graph region.offered start 0 [] s →
      P f (outcome (refineFunction scope f) s).2)
    (hkeep : ∀ f ∈ functions, ∀ s t, ReflTransGen (Step scope.graph region.offered) start s →
      ReflTransGen (Step scope.graph region.offered) s t → P f s → P f t)
    (hs : Reached scope.graph region.offered start 0 [] s) :
    ∀ f ∈ functions, P f (outcome (functions.forM (refineFunction scope)) s).2 := by
  induction functions generalizing s with
  | nil => nofun
  | cons f functions ih =>
    obtain ⟨hf, hfunctions⟩ := List.forall_mem_cons.1 hfunctions
    obtain ⟨hrefineFirst, hrefine⟩ := List.forall_mem_cons.1 hrefine
    obtain ⟨hkeepFirst, hkeep⟩ := List.forall_mem_cons.1 hkeep
    have sim := simulation_reached scope region start
    have hnext := (sim.refineFunction hf s s ⟨rfl, hs⟩).2.2
    refine List.forall_mem_cons.2 ⟨?_, ih hfunctions hrefine hkeep hnext⟩
    have hrest : Reached scope.graph region.offered _ 0 [] _ :=
      reached_refineFunctions hfunctions ⟨hnext.nesting, hnext.active, List.nodup_nil, nofun, .refl⟩
    exact hkeepFirst _ _ hnext.steps hrest.steps (hrefineFirst s hs)

end

/-- What refining a function brings about and no step undoes holds of each function in the session
of a round. -/
theorem roundSession_establish {region : Region scope.graph} {root : Node}
    (cover : region.Covers root) (known : Knowledge) {P : DeclaredFunction → Session → Prop}
    (hrefine : ∀ f ∈ scope.graph.functions, ∀ s,
      Reached scope.graph region.offered (Session.start known) 0 [] s →
      P f (outcome (refineFunction scope f) s).2)
    (hkeep : ∀ f ∈ scope.graph.functions, ∀ s t,
      ReflTransGen (Step scope.graph region.offered) (Session.start known) s →
      ReflTransGen (Step scope.graph region.offered) s t → P f s → P f t) :
    ∀ f ∈ scope.graph.functions, P f (roundSession scope root known) := by
  have sim := simulation_reached scope region (Session.start known)
  have hstart : Reached scope.graph region.offered (Session.start known) 0 []
      (Session.start known) := ⟨rfl, rfl, List.nodup_nil, nofun, .refl⟩
  have hpassed := (sim.propagate cover _ _ ⟨rfl, hstart⟩).2
  have hsites := (InStep.forM (fun site hsite => sim.refineSite cover hsite) _ _ hpassed).2
  exact refineFunctions_establish (fun _ hf => hf) hrefine hkeep hsites.2

/-- In the session of a round in which functions may be evaluated at all, each is signed. -/
theorem signed_roundSession {region : Region scope.graph} {root : Node}
    (cover : region.Covers root) (hample : scope.limits.Ample) (known : Knowledge) :
    ∀ f ∈ scope.graph.functions,
      ∃ returned, Signed (roundSession scope root known) f returned := by
  refine roundSession_establish (P := fun f s => ∃ returned, Signed s f returned) cover known
    (fun f hf s hs => ?_) fun f _ s t _ hsteps hsigned => ?_
  · obtain ⟨asked, returned, -, hanswered, hreturns, hrefine⟩ :=
      exists_asked_refineFunction hample (noted_start known) hf hs
    rw [hrefine]
    exact ⟨returned, signed_writeSignature hanswered hreturns⟩
  · obtain ⟨returned, hsigned⟩ := hsigned
    exact ⟨returned, signed_steps hsteps hsigned⟩

/-! ## Promises -/

/-- The results of asynchronous functions are promises. -/
def Promising (graph : CallGraph) (returns : Table Estimate) : Prop :=
  ∀ f ∈ graph.functions, f.isAsync = true → ∀ e, returns.get? f.name = some e →
    e.type.isPromise = true

section

variable {program : Place}

theorem promising_step (h : Step (CallGraph.ofProgram program) offered s t)
    (hs : Promising (CallGraph.ofProgram program) s.returns) :
    Promising (CallGraph.ofProgram program) t.returns := by
  cases h with
  | offer | sign | bookkeep => exact hs
  | @record g value hg _ hpromise =>
    intro f hf hasync e he
    rw [Table.get?_set] at he
    split at he
    · rename_i hname
      cases he
      rw [CallGraph.eq_of_name_eq hg hf hname] at hpromise
      exact hpromise hasync
    · exact hs f hf hasync e he

theorem promising_steps (h : ReflTransGen (Step (CallGraph.ofProgram program) offered) s t)
    (hs : Promising (CallGraph.ofProgram program) s.returns) :
    Promising (CallGraph.ofProgram program) t.returns := by
  induction h with
  | refl => exact hs
  | tail _ hstep ih => exact promising_step hstep ih

end

end Typing

namespace Inference

/-- What the functions of a program return after some rounds, each with its own budget, its own map
and its own view of the uses. -/
def resultsAfter (program : Place) (turns : List (Budget × TypeMap × Usage)) : Table Estimate :=
  turns.foldl (fun returns turn =>
    (resolve ⟨CallGraph.ofProgram program, turn.1.limits⟩ program.node turn.2.2
      ⟨turn.2.1, returns⟩).returns) .empty

theorem promising_resultsAfter (program : Place) (turns : List (Budget × TypeMap × Usage)) :
    Promising (CallGraph.ofProgram program) (resultsAfter program turns) := by
  unfold resultsAfter
  generalize hstart : (Table.empty : Table Estimate) = returns
  have h : Promising (CallGraph.ofProgram program) returns := by
    subst hstart
    nofun
  clear hstart
  induction turns generalizing returns with
  | nil => exact h
  | cons turn turns ih =>
    exact ih _ (promising_steps (steps_ofProgram program turn.1.limits program.node _) h)

/-- After a round in which the deadline has not passed, from any map, whatever rounds went before,
each function has a result, which is a promise if the function is asynchronous. Its name is held at
least as firmly as the result, but from 0.6 on and up to 0.95; and it is held for a function, unless
it is held more firmly than that. -/
theorem functions_resolved (program : Place) (turns : List (Budget × TypeMap × Usage))
    (budget : Budget) (hdeadline : ∀ reading, budget.deadlinePassed reading = false)
    (types : TypeMap) (usage : Usage) :
    let graph := CallGraph.ofProgram program
    let known := resolve ⟨graph, budget.limits⟩ program.node usage
      ⟨types, resultsAfter program turns⟩
    ∀ f ∈ graph.functions, ∃ returned held,
      known.returns.get? f.name = some returned ∧
      (f.isAsync = true → returned.type.isPromise = true) ∧
      known.types.get? f.name = some held ∧
      let sure := min (.percent 95) (max (.percent 60) returned.confidence)
      sure ≤ held.confidence ∧ (held.type.isSignature = true ∨ sure < held.confidence) := by
  intro graph known f hf
  let scope : Scope := ⟨graph, budget.limits⟩
  let start : Knowledge := ⟨types, resultsAfter program turns⟩
  have hsteps := steps_ofProgram program budget.limits program.node start
  have hpromising := promising_steps hsteps (promising_resultsAfter program turns)
  obtain ⟨returned, hsigned⟩ :
      ∃ returned, Signed (roundSession scope program.node start) f returned :=
    signed_roundSession (Region.covers_whole program program.node) (Budget.ample_limits hdeadline)
      start f hf
  -- The uses are offered like any other estimate, so they only refine what is held.
  obtain ⟨old, hold, hstands⟩ := hsigned.held
  have hfold : (roundSession scope program.node start).types.Refines graph known.types :=
    .fold usage _
  obtain ⟨held, hheld, hreplaces⟩ := hfold f.name old hold
  have hstands' := hstands.replaced hreplaces
  exact ⟨returned, held, hsigned.returns, fun hasync => hpromising f hf hasync _ hsigned.returns,
    hheld, hstands'.le, hstands'.signature_or_lt⟩

/-- An asynchronous function `f` that calls `g`, and a function `g` that calls `f`. -/
def entangled : Place where
  node :=
    ⟨0, .program, none, true, none,
      [⟨1, .functionDeclaration, none, true, none,
          [⟨2, .asyncToken, none, false, some "async", []⟩,
            ⟨3, .identifier, some .name, true, some "f", []⟩,
            ⟨4, .formalParameters, some .parameters, true, none, []⟩,
            ⟨5, .statementBlock, some .body, true, none,
              [⟨6, .returnStatement, none, true, none,
                [⟨7, .callExpression, none, true, none,
                  [⟨8, .identifier, some .callee, true, some "g", []⟩,
                    ⟨9, .arguments, some .arguments, true, none, []⟩]⟩]⟩]⟩]⟩,
        ⟨10, .functionDeclaration, none, true, none,
          [⟨11, .identifier, some .name, true, some "g", []⟩,
            ⟨12, .formalParameters, some .parameters, true, none, []⟩,
            ⟨13, .statementBlock, some .body, true, none,
              [⟨14, .returnStatement, none, true, none,
                [⟨15, .callExpression, none, true, none,
                  [⟨16, .identifier, some .callee, true, some "f", []⟩,
                    ⟨17, .arguments, some .arguments, true, none, []⟩]⟩]⟩]⟩]⟩]⟩
  above := []

/-- A budget in which no function is evaluated inside another. -/
def shallow : Budget := ⟨⟨1, 0, 1, by decide, by decide⟩, fun _ => 0⟩

/-- The functions call each other and may not be evaluated inside each other, and yet a round from
any map leaves the asynchronous one with a promise and its name held for a function or above 0.6. -/
theorem functions_resolved_entangled :
    let graph := CallGraph.ofProgram entangled
    (∀ reading, shallow.deadlinePassed reading = false) ∧
    ∃ f ∈ graph.functions, f.name = "f" ∧ f.isAsync = true ∧ ∀ (types : TypeMap) (usage : Usage),
      let known := resolve ⟨graph, shallow.limits⟩ entangled.node usage
        ⟨types, resultsAfter entangled []⟩
      ∃ returned held, known.returns.get? "f" = some returned ∧ returned.type.isPromise = true ∧
        known.types.get? "f" = some held ∧
        (held.type.isSignature = true ∨
          min (.percent 95) (max (.percent 60) returned.confidence) < held.confidence) := by
  intro graph
  have hf : graph.functions.any (fun f => f.name = "f" && f.isAsync) = true := by decide +kernel
  obtain ⟨f, hmem, hfacts⟩ := List.any_eq_true.1 hf
  rw [Bool.and_eq_true, decide_eq_true_eq] at hfacts
  obtain ⟨hname, hasync⟩ := hfacts
  refine ⟨fun _ => rfl, f, hmem, hname, hasync, fun types usage => ?_⟩
  obtain ⟨returned, held, hreturned, hpromise, hheld, -, hsure⟩ :=
    functions_resolved entangled [] shallow (fun _ => rfl) types usage f hmem
  rw [hname] at hreturned hheld
  exact ⟨returned, held, hreturned, hpromise hasync, hheld, hsure⟩

end Inference

end ScriptTypes
