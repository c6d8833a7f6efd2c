import ScriptTypes.Proofs.Requests
import ScriptTypes.Proofs.Settling
import ScriptTypes.Proofs.Unions

/-!
# What budgets are good for

A budget tells by its thresholds only. Evaluations nest no deeper than expressions do, so a depth
that expressions do not reach is no limit; and the time counts only as far as it is used up or not.
When it is used up, a run makes one round in which every expression is typed structurally and no
function is evaluated.

* `Limits.Agrees.round`, `Limits.Agrees.settle`: limits that typing cannot tell apart.
* `Session.tooDeep`: evaluations nest deeper than expressions.
* `Standard.unsigned`: the standard of types without signatures.
* `Limits.Spent`: limits under which the time is used up.
* `Idle`: a session in which no function was evaluated.
* `idle_roundSession`: when the time is used up, a round leaves its session idle at any depth.
* `budgets_matter_by_thresholds`: what a run makes of its budget.
-/

namespace ScriptTypes

open Typing Inference

/-! ## Limits that agree -/

namespace Limits.Agrees

variable {limits other : Limits} (h : limits.Agrees other) (program : Place)

include h

theorem later (readings : Nat) : (limits.later readings).Agrees (other.later readings) where
  expired := by rw [Limits.later, Limits.later, h.expired]
  depth := h.depth

theorem roundSession_eq (known : Knowledge) :
    roundSession ⟨CallGraph.ofProgram program, limits⟩ program.node known =
      roundSession ⟨CallGraph.ofProgram program, other⟩ program.node known := by
  let left : Scope := ⟨CallGraph.ofProgram program, limits⟩
  let right : Scope := ⟨CallGraph.ofProgram program, other⟩
  have hsites : List.Forall₂ (CallSite.Commented Eq) left.graph.sites right.graph.sites :=
    List.forall₂_same.2 fun site _ => .refl (fun _ => rfl) site
  exact Typing.roundSession_eq left right (Region.covers_whole program program.node) biUnique_eq h
    left.graph.functions_commented hsites (.refl (fun _ => rfl) program.node) known

theorem round (known : Knowledge) :
    round ⟨CallGraph.ofProgram program, limits⟩ program known =
      round ⟨CallGraph.ofProgram program, other⟩ program known := by
  rw [Inference.round, Inference.round, resolve, resolve, h.roundSession_eq]

/-- The sessions of the rounds read the clock equally often, so the limits go on to agree. -/
theorem settle (count : Nat) (known : Knowledge) :
    settle ⟨CallGraph.ofProgram program, limits⟩ program count known =
      settle ⟨CallGraph.ofProgram program, other⟩ program count known := by
  induction count generalizing limits other known with
  | zero => rfl
  | succ count ih =>
    rw [settle_succ, settle_succ, h.round program, h.roundSession_eq program, h.expired,
      Scope.later, Scope.later, ih (h.later _)]

end Limits.Agrees

/-- A depth that no expression reaches sets no limit. -/
theorem Limits.Agrees.of_deep {limits other : Limits} (hdepth : maxNesting < limits.maxDepth)
    (hother : maxNesting < other.maxDepth) (hexpired : other.expired = limits.expired) :
    limits.Agrees other :=
  ⟨hexpired, fun _ => by omega⟩

/-! ## The depth of evaluations -/

/-- Whether more functions are under evaluation than expressions are being typed, but one. -/
def Typing.Session.tooDeep (s : Session) : Bool := s.nesting + 1 < s.active.length

theorem Typing.Reached.tooDeep_eq {graph : CallGraph} {offered : String → Prop} {s t : Session}
    {nesting : Nat} {stack : List (Option String)} (h : Reached graph offered s nesting stack t)
    (hstack : stack.length ≤ nesting + 1) : t.tooDeep = false := by
  rw [Session.tooDeep, h.active, h.nesting, decide_eq_false_iff_not]
  omega

/-! ## Types without signatures -/

namespace Ty

/-- No signature stands in the type, at any depth. -/
def Unsigned (t : Ty) : Prop := ∀ part ∈ t.parts, part.isSignature = false

variable {t : Ty}

theorem unsigned_array : (Ty.array t).Unsigned ↔ t.Unsigned := by
  simp [Unsigned, parts, isSignature]

theorem unsigned_generic {name : String} {args : List Ty} :
    (Ty.generic name args).Unsigned ↔ ∀ t ∈ args, t.Unsigned := by
  simp only [Unsigned, parts, List.forall_mem_cons, mem_partsOfAll]
  exact ⟨fun h t ht part hpart => h.2 part ⟨t, ht, hpart⟩,
    fun h => ⟨rfl, fun part ⟨t, ht, hpart⟩ => h t ht part hpart⟩⟩

theorem unsigned_union {members : List Ty} :
    (Ty.union members).Unsigned ↔ ∀ t ∈ members, t.Unsigned := by
  simp only [Unsigned, parts, List.forall_mem_cons, mem_partsOfAll]
  exact ⟨fun h t ht part hpart => h.2 part ⟨t, ht, hpart⟩,
    fun h => ⟨rfl, fun part ⟨t, ht, hpart⟩ => h t ht part hpart⟩⟩

theorem not_unsigned_fn {params : List Ty} {returns : Ty} {rest : Option Ty} :
    ¬(Ty.fn params returns rest).Unsigned := by
  intro h
  have hself := h (.fn params returns rest) (by simp [parts])
  cases hself

theorem Unsigned.member (h : t.Unsigned) {m : Ty} (hm : m ∈ t.members) : m.Unsigned := by
  cases t with
  | union members => exact unsigned_union.1 h m hm
  | _ => exact List.mem_singleton.1 hm ▸ h

end Ty

/-- Types without signatures may be guessed, and held as firmly as one likes. -/
def Standard.unsigned : Standard where
  type := Ty.Unsigned
  firm _ := True
  type_any := by simp [Ty.Unsigned, Ty.parts, Ty.isSignature]
  type_prim p := by simp [Ty.Unsigned, Ty.parts, Ty.isSignature]
  type_array := Ty.unsigned_array
  type_generic := Ty.unsigned_generic
  type_result h := absurd h Ty.not_unsigned_fn
  type_member h hm := h.member hm
  type_union hs ht _ _ := by
    refine Ty.unsigned_union.2 fun m hm => ?_
    rcases List.mem_append.1 (Ty.mem_distinct hm) with hm | hm
    · exact hs.member hm
    · exact ht.member hm
  firm_basic _ := trivial
  firm_element _ := trivial
  firm_promise _ _ := trivial

/-- What the map holds beyond another is held for no signature. -/
def TypeMap.UnsignedBeyond (base types : TypeMap) : Prop :=
  ∀ name e, types.get? name = some e → Standard.unsigned.Meets e ∨ base.get? name = some e

namespace TypeMap.UnsignedBeyond

variable {base types : TypeMap}

theorem refl (base : TypeMap) : base.UnsignedBeyond base := fun _ _ he => .inr he

theorem assign (h : base.UnsignedBeyond types) (name : String) {new : Estimate}
    (hnew : Standard.unsigned.Meets new) (replaceEqual : Bool) :
    base.UnsignedBeyond (types.assign name new replaceEqual) := by
  intro other e he
  unfold TypeMap.assign at he
  split at he
  · rw [Table.get?_set] at he
    split at he
    · cases he
      exact .inl hnew
    · exact h other e he
  · exact h other e he

theorem fold (h : base.UnsignedBeyond types) (usage : Usage) :
    base.UnsignedBeyond (usage.fold types) :=
  Usage.fold_invariant (fun _ name _ _ _ h hcandidate =>
    h.assign name (Standard.meets_candidate? hcandidate) false) usage h

end TypeMap.UnsignedBeyond

/-! ## When the time is used up -/

/-- Limits under which the time is used up at every reading of the clock. -/
structure Limits.Spent (limits : Limits) : Prop where
  depth : 0 < limits.maxDepth
  expired : ∀ reading, limits.expired reading = true

theorem Budget.spent_limits {budget : Budget}
    (h : ∀ reading, budget.deadlinePassed reading = true) : budget.limits.Spent :=
  ⟨budget.config.maxDepth_pos, h⟩

namespace Typing

variable {scope : Scope} {base : TypeMap} {s : Session}

/-- A session outside all expressions in which no function was evaluated and no signature
written. -/
structure Idle (base : TypeMap) (s : Session) : Prop where
  nesting : s.nesting = 0
  active : s.active = []
  returns : s.returns = .empty
  answered : s.answered = []
  types : base.UnsignedBeyond s.types

/-- Reading the clock leaves a session idle. -/
theorem Idle.read (h : Idle base s) (readings : Nat) : Idle base { s with readings := readings } :=
  ⟨h.nesting, h.active, h.returns, h.answered, h.types⟩

/-- When the time is used up, expressions are typed structurally. -/
theorem outcome_infer_of_spent (hspent : scope.limits.Spent) (hs : s.nesting = 0) (n : Node) :
    outcome (infer scope n) s = (structural n, { s with readings := s.readings + 1 }) := by
  unfold infer
  have hroom : maxNesting - s.nesting = maxNesting := by rw [hs, Nat.sub_zero]
  rw [outcome_get_bind, hroom, outcome_inferWithin_of_expired (hspent.expired _)]
  rfl

/-- When the time is used up, no function is evaluated, so that there is nothing to sign. -/
theorem outcome_refineFunction_of_spent (hspent : scope.limits.Spent) (hs : Idle base s)
    (f : DeclaredFunction) :
    outcome (refineFunction scope f) s = ((), { s with readings := s.readings + 1 }) := by
  have hreturns : s.returns.get? f.name = none := by rw [hs.returns, Table.get?_empty]
  have hanswered : s.answered.get? f.name = none := by
    rw [hs.answered]
    rfl
  have hfinal : finalReturn? s.toKnowledge f = none := by
    rw [finalReturn?, hreturns]
    rfl
  have hrefused : outcome (refused scope) s = (true, { s with readings := s.readings + 1 }) := by
    rw [outcome_refused_of_idle hspent.depth hs.active, outcome_expired, hspent.expired]
  have hasked : outcome (functionReturn scope (infer scope) f) s =
      (none, { s with readings := s.readings + 1 }) := by
    have hidle : some f.name ∉ s.active := by
      rw [hs.active]
      exact List.not_mem_nil
    rw [outcome_functionReturn, hanswered, hfinal, hrefused, if_neg hidle]
    rfl
  rw [outcome_refineFunction, hfinal, hasked, outcome_writeSignature]
  simp [hreturns]

section

variable {program : Place} {limits other : Limits} (hspent : limits.Spent) (hother : other.Spent)
variable (base)

include hspent hother

/-- Passing values on leaves sessions idle and alike: what is passed on is typed structurally. -/
theorem passing_idle :
    Passing ⟨CallGraph.ofProgram program, limits⟩ ⟨CallGraph.ofProgram program, other⟩
      (Region.whole program) Eq .unsigned fun s t => s = t ∧ Idle base s where
  function? hf := ⟨_, hf, .refl (fun _ => rfl) _⟩
  function?_none hf _ := hf
  infer := by
    rintro n n' - h s _ ⟨rfl, hs⟩
    rw [outcome_infer_of_spent hspent hs.nesting, outcome_infer_of_spent hother hs.nesting,
      structural_commented h]
    exact ⟨rfl, meets_structural n, rfl, hs.read _⟩
  offered := by
    rintro name e - he s _ ⟨rfl, hs⟩
    exact ⟨rfl, trivial, rfl, hs.nesting, hs.active, hs.returns, hs.answered,
      hs.types.assign name he false⟩

theorem refineFunction_idle (f : DeclaredFunction) :
    Coupled (fun s t => s = t ∧ Idle base s) (fun _ => True)
      (refineFunction ⟨CallGraph.ofProgram program, limits⟩ f)
      (refineFunction ⟨CallGraph.ofProgram program, other⟩ f) := by
  rintro s _ ⟨rfl, hs⟩
  rw [outcome_refineFunction_of_spent hspent hs, outcome_refineFunction_of_spent hother hs]
  exact ⟨rfl, trivial, rfl, hs.read _⟩

end

/-- So does the whole round. -/
theorem idle_roundSession (program : Place) {limits other : Limits} (hspent : limits.Spent)
    (hother : other.Spent) (types : TypeMap) (root : Node) :
    let ended := roundSession ⟨CallGraph.ofProgram program, limits⟩ root ⟨types, .empty⟩
    ended = roundSession ⟨CallGraph.ofProgram program, other⟩ root ⟨types, .empty⟩ ∧
      Idle types ended := by
  let left : Scope := ⟨CallGraph.ofProgram program, limits⟩
  let right : Scope := ⟨CallGraph.ofProgram program, other⟩
  have p : Passing left right (Region.whole program) Eq .unsigned
      fun s t => s = t ∧ Idle types s := passing_idle types hspent hother
  have hsame : List.Forall₂ (CallSite.Commented Eq) left.graph.sites right.graph.sites :=
    List.forall₂_same.2 fun site _ => .refl (fun _ => rfl) site
  have hround : Coupled (fun s t => s = t ∧ Idle types s) (fun _ => True)
      (propagate left root *> refineCalls left) (propagate right root *> refineCalls right) := by
    refine (p.propagate (Region.covers_whole program root) (.refl (fun _ => rfl) root)).bind
      fun _ _ => Coupled.bind (P := fun _ => True) ?_ fun _ _ => ?_
    · refine .forM (.of_forall₂ hsame) nofun fun site hsite site' hss => ?_
      exact p.refineSite hss (fun _ _ => trivial) (Standard.meetsSome_argument hsite) id
    · refine .forM (.of_forall₂ (List.forall₂_same.2 fun _ _ => rfl)) nofun fun f _ g hfg => ?_
      subst hfg
      exact refineFunction_idle types hspent hother f
  exact (hround _ _ ⟨rfl, rfl, rfl, rfl, rfl, .refl types⟩).2.2

end Typing

namespace Inference

/-- When the time is used up, a run makes one round. -/
theorem settle_of_spent {scope : Scope} (hspent : scope.limits.Spent) (root : Place)
    {count : Nat} (hcount : 0 < count) (known : Knowledge) :
    settle scope root count known = round scope root known := by
  obtain ⟨count, rfl⟩ := Nat.exists_eq_add_of_lt hcount
  rw [Nat.zero_add, settle_succ, hspent.expired, Bool.or_true, if_pos rfl]

/-- A run depends on its budget by thresholds only. Depths above 100 all come to the same, since
never, however deep inside a request, are more functions under evaluation than expressions are being
typed, but one. The time and the readings of the clock count only as far as the deadline has passed
at them or not. If it has at all of them, the run is one round, in which no function gets a result
and no name a signature that was not collected, and neither the depth nor the number of rounds
matters. -/
theorem budgets_matter_by_thresholds (program : Place) (budget other : Budget) :
    (101 ≤ budget.config.maxDepth → 101 ≤ other.config.maxDepth →
      budget.config.maxTime = other.config.maxTime →
      budget.config.maxIterations = other.config.maxIterations → budget.clock = other.clock →
        run budget program = run other program) ∧
    (∀ (request : Request (CallGraph.ofProgram program)) (alarm : SessionM Estimate) (s : Session),
      s.active = [] →
        let scope : Scope := ⟨CallGraph.ofProgram program, budget.limits⟩
        outcome (request.perform scope (watched scope Session.tooDeep alarm)) s =
          outcome (request.perform scope (infer scope)) s) ∧
    (budget.config.maxDepth = other.config.maxDepth →
      budget.config.maxIterations = other.config.maxIterations →
      (∀ reading, budget.deadlinePassed reading = other.deadlinePassed reading) →
        run budget program = run other program) ∧
    ((∀ reading, budget.deadlinePassed reading = true) →
      let scope : Scope := ⟨CallGraph.ofProgram program, budget.limits⟩
      let after := round scope program (initial program)
      settle scope program budget.config.maxIterations (initial program) = after ∧
      after.returns = .empty ∧
      (∀ name e, after.types.get? name = some e → e.type.isSignature = true →
        (TypeMap.collect program.node).get? name = some e) ∧
      ((∀ reading, other.deadlinePassed reading = true) →
        run budget program = run other program)) := by
  refine ⟨?_, ?_, ?_, ?_⟩
  · intro hdepth hother htime hiterations hclock
    have hpassed : other.deadlinePassed = budget.deadlinePassed := by
      funext reading
      simp only [Budget.deadlinePassed, Budget.elapsedMs, htime, hclock]
    have hagrees : budget.limits.Agrees other.limits := .of_deep hdepth hother hpassed
    simp only [run, hagrees.settle program, hiterations]
  · intro request alarm s hs scope
    exact outcome_perform_watched hs (fun _ _ _ h hstack => h.tooDeep_eq hstack) alarm request
  · intro hdepth hiterations hpassed
    have hsame : budget.deadlinePassed = other.deadlinePassed := funext hpassed
    simp only [run, Budget.limits, hdepth, hiterations, hsame]
  · intro hpassed scope after
    have hspent : scope.limits.Spent := Budget.spent_limits hpassed
    have hidle : Idle (TypeMap.collect program.node)
        (roundSession scope program.node (initial program)) :=
      (idle_roundSession program hspent hspent _ program.node).2
    refine ⟨settle_of_spent hspent program budget.config.maxIterations_pos _, hidle.returns,
      fun name e he hsignature => ?_, fun hother => ?_⟩
    · refine ((hidle.types.fold _) name e he).resolve_left fun hmeets => ?_
      have hself := hmeets.type e.type (by cases e.type <;> simp [Ty.parts])
      rw [hsignature] at hself
      cases hself
    · let scope' : Scope := ⟨CallGraph.ofProgram program, other.limits⟩
      have hspent' : scope'.limits.Spent := Budget.spent_limits hother
      have hends : roundSession scope program.node (initial program) =
          roundSession scope' program.node (initial program) :=
        (idle_roundSession program hspent hspent' _ program.node).1
      simp only [run]
      rw [settle_of_spent hspent program budget.config.maxIterations_pos,
        settle_of_spent hspent' program other.config.maxIterations_pos, round, round, resolve,
        resolve, hends]

/-- Two functions that call each other, with depths above 100, with times that are not used up, and
a second after the start with some milliseconds. -/
theorem budgets_matter_by_thresholds_shadowed :
    let scope : Scope := ⟨CallGraph.ofProgram shadowedResult, patient.limits⟩
    let deep : Budget := ⟨⟨101, 0, 5, by decide, by decide⟩, fun _ => 0⟩
    let deeper : Budget := ⟨⟨1000, 0, 5, by decide, by decide⟩, fun _ => 0⟩
    let quick : Budget := ⟨⟨8, 3, 5, by decide, by decide⟩, fun _ => 0⟩
    let late : Budget := ⟨⟨1, 1, 1, by decide, by decide⟩, fun _ => Binary64.onePattern⟩
    let belated : Budget := ⟨⟨8, 500, 5, by decide, by decide⟩, fun _ => Binary64.onePattern⟩
    run deep shadowedResult = run deeper shadowedResult ∧
    (∀ (request : Request scope.graph) (alarm : SessionM Estimate),
      outcome (request.perform scope (watched scope Session.tooDeep alarm))
          (.start (initial shadowedResult)) =
        outcome (request.perform scope (infer scope)) (.start (initial shadowedResult))) ∧
    run patient shadowedResult = run quick shadowedResult ∧
    (∀ reading, late.deadlinePassed reading = true) ∧
    (∀ reading, belated.deadlinePassed reading = true) ∧
    run late shadowedResult = run belated shadowedResult ∧
    ∃ e, (round ⟨scope.graph, late.limits⟩ shadowedResult
        (initial shadowedResult)).types.get? "h" = some e ∧ e.type.isSignature = true ∧
      (TypeMap.collect shadowedResult.node).get? "h" = some e := by
  intro scope deep deeper quick late belated
  have hlate : late.deadlinePassed 0 = true := by decide +kernel
  have hbelated : belated.deadlinePassed 0 = true := by decide +kernel
  have hquick : quick.deadlinePassed 0 = false := by decide +kernel
  have hexpired := (budgets_matter_by_thresholds shadowedResult late belated).2.2.2 fun _ => hlate
  refine ⟨?_, fun request alarm => ?_, ?_, fun _ => hlate, fun _ => hbelated,
    hexpired.2.2.2 fun _ => hbelated, ?_⟩
  · exact (budgets_matter_by_thresholds shadowedResult deep deeper).1 (by decide) (by decide) rfl
      rfl rfl
  · exact (budgets_matter_by_thresholds shadowedResult patient patient).2.1 request alarm
      (.start (initial shadowedResult)) rfl
  · exact (budgets_matter_by_thresholds shadowedResult patient quick).2.2.1 rfl rfl
      fun _ => hquick.symm
  · have hheld : ((round ⟨scope.graph, late.limits⟩ shadowedResult
        (initial shadowedResult)).types.get? "h").any (·.type.isSignature) = true := by
      decide +kernel
    obtain ⟨e, he, hsignature⟩ := (Option.any_eq_true _ _).1 hheld
    exact ⟨e, he, hsignature, hexpired.2.2.1 "h" e he hsignature⟩

end Inference

end ScriptTypes
