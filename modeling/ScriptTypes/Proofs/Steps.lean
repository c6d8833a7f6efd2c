import Mathlib.Logic.Relation
import ScriptTypes.Proofs.Lockstep.Resolution
import ScriptTypes.Proofs.Program

/-!
# The steps of a round

However deep the typing of an expression nests, a session changes in four ways only. What holds of
every step holds of the session of a round.

* `Step`: one change of a session.
* `steps_roundSession`, `steps_ofProgram`: the session of a round is reached from its start by
  steps.
* `finalReturn?_steps`: no step changes a result that is final.
-/

namespace ScriptTypes.Typing

open Relation (ReflTransGen)

/-- One change of a session: a name is offered an estimate, the result of a function is noted, the
signature of a function is written from its result, or the stack of evaluations and the counters
change. -/
inductive Step (graph : CallGraph) (offered : String → Prop) (s : Session) : Session → Prop
  | offer {name : String} (e : Estimate) (h : offered name) :
    Step graph offered s { s with types := s.types.assign name e false }
  | record {f : DeclaredFunction} (e : Estimate) (h : f ∈ graph.functions)
    (ho : Unanswered s f.name) (hp : f.isAsync = true → e.type.isPromise = true) :
    Step graph offered s
      { s with returns := s.returns.set f.name e, answered := (f.name, e) :: s.answered }
  | sign {f : DeclaredFunction} {returned : Estimate} (h : f ∈ graph.functions)
    (hr : s.returns.get? f.name = some returned) :
    Step graph offered s
      { s with types := s.types.assign f.name (signatureOf s.types f returned) true }
  | bookkeep (stack : List (Option String)) (nesting readings : Nat) :
    Step graph offered s { s with active := stack, nesting := nesting, readings := readings }

/-- A session with a nesting and a stack that is reached from another by steps. No function stands
on the stack twice, and those that do have no answer yet. -/
structure Reached (graph : CallGraph) (offered : String → Prop) (start : Session) (nesting : Nat)
    (stack : List (Option String)) (s : Session) : Prop where
  nesting : s.nesting = nesting
  active : s.active = stack
  distinct : (stack.filterMap id).Nodup
  unsettled : ∀ name, some name ∈ stack → Unanswered s name
  steps : ReflTransGen (Step graph offered) start s

/-- The counters may change under a session that is reached. -/
theorem Reached.bookkeep {graph : CallGraph} {offered : String → Prop} {start s : Session}
    {nesting : Nat} {stack : List (Option String)} (h : Reached graph offered start nesting stack s)
    (nesting' readings : Nat) : Reached graph offered start nesting' stack
      { s with nesting := nesting', readings := readings } :=
  ⟨rfl, h.active, h.distinct, fun name hmem => (h.unsettled name hmem).congr rfl rfl,
    h.steps.tail (.bookkeep _ _ _)⟩

/-- Being reached is kept by the actions of a session. It relates sessions to themselves only, so
whatever is looked at is the same on both sides. -/
theorem simulation_reached (scope : Scope) (region : Region scope.graph) (start : Session) :
    Simulation scope region fun nesting stack s t =>
      s = t ∧ Reached scope.graph region.offered start nesting stack s where
  nesting := by
    rintro nesting stack s _ ⟨rfl, h⟩
    exact ⟨h.nesting, h.nesting⟩
  active := by
    rintro nesting stack s _ ⟨rfl, h⟩
    exact ⟨h.active, h.active⟩
  types := by
    rintro nesting stack s _ name ⟨rfl, -⟩ -
    rfl
  answered := by
    rintro nesting stack s _ f ⟨rfl, -⟩ -
    rfl
  final := by
    rintro nesting stack s _ f ⟨rfl, -⟩ -
    rfl
  returned := by
    rintro nesting s _ f ⟨rfl, -⟩ - -
    rfl
  clock := by
    rintro nesting stack s _ ⟨rfl, h⟩
    refine ⟨rfl, rfl, ?_⟩
    rw [outcome_expired, ← h.nesting]
    exact h.bookkeep s.nesting (s.readings + 1)
  descend := by
    rintro nesting stack s _ ⟨rfl, h⟩
    refine ⟨rfl, ?_⟩
    rw [outcome_descend, ← h.nesting]
    exact h.bookkeep (s.nesting + 1) s.readings
  ascend := by
    rintro nesting stack s _ ⟨rfl, h⟩
    refine ⟨rfl, ?_⟩
    rw [outcome_ascend, h.nesting]
    exact h.bookkeep nesting s.readings
  enter := by
    rintro nesting stack s _ f ⟨rfl, h⟩ - hstack hopen
    refine ⟨rfl, h.nesting, ?_, ?_, ?_, h.steps.tail (.bookkeep _ _ _)⟩
    · rw [outcome_enter, h.active]
    · exact List.nodup_cons.2 ⟨fun hmem => hstack (by simpa using hmem), h.distinct⟩
    · intro name hmem
      rcases List.mem_cons.1 hmem with heq | hmem
      · cases heq
        exact hopen.congr rfl rfl
      · exact (h.unsettled name hmem).congr rfl rfl
  finish := by
    rintro nesting stack s _ f e ⟨rfl, h⟩ hf hstack hasync
    have hopen := h.unsettled f.name List.mem_cons_self
    refine ⟨rfl, h.nesting, ?_, h.distinct.of_cons, fun name hmem => ?_,
      (h.steps.tail (.bookkeep _ _ _)).tail (.record e hf (hopen.congr rfl rfl) hasync)⟩
    · exact (congrArg List.tail h.active).trans (List.tail_cons ..)
    · have hne : f.name ≠ name := fun heq => hstack (heq ▸ hmem)
      have hother := h.unsettled name (List.mem_cons_of_mem _ hmem)
      exact (unanswered_record_iff e hne).2 (hother.congr rfl rfl)
  enterLiteral := by
    rintro nesting stack s _ ⟨rfl, h⟩
    refine ⟨rfl, h.nesting, ?_, h.distinct,
      fun name hmem => (h.unsettled name (by simpa using hmem)).congr rfl rfl,
      h.steps.tail (.bookkeep _ _ _)⟩
    rw [outcome_enter, h.active]
  leaveLiteral := by
    rintro nesting stack s _ ⟨rfl, h⟩
    refine ⟨rfl, h.nesting, ?_, h.distinct,
      fun name hmem => (h.unsettled name (by simp [hmem])).congr rfl rfl,
      h.steps.tail (.bookkeep _ _ _)⟩
    rw [outcome_leave, h.active, List.tail_cons]
  offer := by
    rintro nesting stack name e ho s _ ⟨rfl, h⟩
    exact ⟨rfl, rfl, h.nesting, h.active, h.distinct,
      fun name hmem => (h.unsettled name hmem).congr rfl rfl, h.steps.tail (.offer e ho)⟩
  sign := by
    rintro nesting stack s _ f ⟨rfl, h⟩ hf -
    refine ⟨rfl, ?_⟩
    rw [outcome_writeSignature]
    cases hr : s.returns.get? f.name with
    | none => exact h
    | some returned =>
      exact ⟨h.nesting, h.active, h.distinct,
        fun name hmem => (h.unsettled name hmem).congr rfl rfl, h.steps.tail (.sign hf hr)⟩

/-- The session of a round is reached from its start by steps that offer estimates only to the
names that the region of the program allows. -/
theorem steps_roundSession {scope : Scope} {region : Region scope.graph} {root : Node}
    (cover : region.Covers root) (known : Knowledge) :
    ReflTransGen (Step scope.graph region.offered) (Session.start known)
      (roundSession scope root known) := by
  have hstart : Reached scope.graph region.offered (Session.start known) 0 []
      (Session.start known) := ⟨rfl, rfl, List.nodup_nil, nofun, .refl⟩
  exact ((simulation_reached scope region _).session cover _ _ ⟨rfl, hstart⟩).2.2.steps

/-- The session of a round over the functions of a program. -/
theorem steps_ofProgram (program : Place) (limits : Limits) (root : Node) (known : Knowledge) :
    ReflTransGen (Step (CallGraph.ofProgram program) fun _ => True) (Session.start known)
      (roundSession ⟨CallGraph.ofProgram program, limits⟩ root known) := by
  let scope : Scope := ⟨CallGraph.ofProgram program, limits⟩
  have hsteps : ReflTransGen (Step scope.graph (Region.whole program).offered)
      (Session.start known) (roundSession scope root known) :=
    steps_roundSession (Region.covers_whole program root) known
  exact hsteps

variable {graph : CallGraph} {offered : String → Prop} {s t : Session} {f : DeclaredFunction}
  {e : Estimate}

/-- A result that is final stays. -/
theorem finalReturn?_step (h : Step graph offered s t)
    (he : finalReturn? s.toKnowledge f = some e) : finalReturn? t.toKnowledge f = some e := by
  cases h with
  | offer | sign | bookkeep => exact he
  | @record g value _ hopen =>
    have hne : g.name ≠ f.name := by
      intro heq
      have hnone : finalReturn? s.toKnowledge f = none := by
        rw [finalReturn?, ← heq]
        exact hopen.final
      rw [hnone] at he
      cases he
    refine Eq.trans ?_ he
    exact congrArg (Option.filter _) ((Table.get?_set _ _ _ _).trans (if_neg hne))

theorem finalReturn?_steps (h : ReflTransGen (Step graph offered) s t)
    (he : finalReturn? s.toKnowledge f = some e) : finalReturn? t.toKnowledge f = some e := by
  induction h with
  | refl => exact he
  | tail _ hstep ih => exact finalReturn?_step hstep ih

end ScriptTypes.Typing
