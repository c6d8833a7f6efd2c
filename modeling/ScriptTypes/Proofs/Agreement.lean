import ScriptTypes.Proofs.Names

/-!
# Rounds from knowledge that agrees

A round looks at the types of names and at the results of functions that are final. From two states
of knowledge that agree on these it goes alike. Names that it does not read may differ in the type
of a function, as long as the confidence is the same.

* `Similar`: what may be held of a name that is not read.
* `Agrees`: maps that agree on some names and are similar on all.
* `Limits.Ample`: limits that refuse no evaluation from the empty stack.
* `simulation_concordant`: sessions whose maps agree stay in step.
* `Alike.round`: a round keeps agreement.
-/

namespace ScriptTypes

/-! ## Estimates -/

/-- What may be held of a name that is not read: the same, or two functions of the same confidence,
which a signature can still replace. -/
inductive Similar : Option Estimate → Option Estimate → Prop
  | same (e : Option Estimate) : Similar e e
  | functions {a b : Estimate} (hc : a.confidence = b.confidence)
    (hm : a.confidence ≤ .signatureMax) (ha : a.type.isFunctionLike = true)
    (hb : b.type.isFunctionLike = true) :
    Similar (some a) (some b)

namespace Similar

variable {a b c : Option Estimate}

theorem eq_or_functions (h : Similar a b) : a = b ∨ ∃ x y, a = some x ∧ b = some y ∧
    x.confidence = y.confidence ∧ x.confidence ≤ .signatureMax ∧ x.type.isFunctionLike = true ∧
    y.type.isFunctionLike = true := by
  cases h with
  | same => exact .inl rfl
  | functions hc hm ha hb => exact .inr ⟨_, _, rfl, rfl, hc, hm, ha, hb⟩

theorem trans (hab : Similar a b) (hbc : Similar b c) : Similar a c := by
  cases hab with
  | same => exact hbc
  | functions hc hm ha hb =>
    cases hbc with
    | same => exact .functions hc hm ha hb
    | functions hc' _ _ hb' => exact .functions (hc.trans hc') hm ha hb'

theorem symm (h : Similar a b) : Similar b a := by
  cases h with
  | same => exact .same _
  | functions hc hm ha hb => exact .functions hc.symm (hc ▸ hm) hb ha

theorem isSome_eq (h : Similar a b) : a.isSome = b.isSome := by
  cases h <;> rfl

/-- Whether an estimate is taken depends on the confidence of the one that is there. -/
theorem supersedes_eq (h : Similar a b) (new : Estimate) (replaceEqual : Bool) :
    new.supersedes a replaceEqual = new.supersedes b replaceEqual := by
  cases h with
  | same => rfl
  | functions hc _ _ _ => simp only [Estimate.supersedes, hc]

theorem merge (h : Similar a b) (new : Estimate) (replaceEqual : Bool) :
    Similar (some (Estimate.merge a new replaceEqual))
      (some (Estimate.merge b new replaceEqual)) := by
  unfold Estimate.merge
  rw [h.supersedes_eq]
  split
  · exact .same _
  · cases h with
    | same => exact .same _
    | functions hc hm ha hb => exact .functions hc hm ha hb

/-- A function is no number. -/
theorem isNumber_eq (h : Similar a b) :
    a.any (·.type == .number) = b.any (·.type == .number) := by
  have hfunction : ∀ t : Ty, t.isFunctionLike = true → (t == .number) = false := by
    intro t ht
    show Ty.same t .number = false
    cases t with
    | fn | generic => simp [Ty.same]
    | _ => simp [Ty.isFunctionLike] at ht
  cases h with
  | same => rfl
  | functions _ _ ha hb => simp only [Option.any_some, hfunction _ ha, hfunction _ hb]

theorem atLeast_eq (h : Similar a b) (level : Confidence) :
    a.any (fun e => level ≤ e.confidence) = b.any (fun e => level ≤ e.confidence) := by
  cases h with
  | same => rfl
  | functions hc _ _ _ => simp only [Option.any_some, hc]

end Similar

/-! ## Maps -/

/-- Maps that agree on some names and are similar on all. -/
structure TypeMap.Agrees (read : String → Prop) (types others : TypeMap) : Prop where
  equal (name : String) : read name → types.get? name = others.get? name
  similar (name : String) : Similar (types.get? name) (others.get? name)

namespace TypeMap.Agrees

variable {read : String → Prop} {types others more : TypeMap}

theorem trans (h : types.Agrees read others) (h' : others.Agrees read more) :
    types.Agrees read more where
  equal name hr := (h.equal name hr).trans (h'.equal name hr)
  similar name := (h.similar name).trans (h'.similar name)

theorem mem_names_iff (h : types.Agrees read others) (name : String) :
    name ∈ types.names ↔ name ∈ others.names := by
  rw [← Table.contains_iff, ← Table.contains_iff, Table.contains, Table.contains,
    (h.similar name).isSome_eq]

theorem assign (h : types.Agrees read others) (name : String) (new : Estimate)
    (replaceEqual : Bool) :
    (types.assign name new replaceEqual).Agrees read (others.assign name new replaceEqual) where
  equal other hr := by
    rw [get?_assign, get?_assign]
    by_cases hname : name = other
    · subst hname
      rw [if_pos rfl, if_pos rfl, h.equal name hr]
    · rw [if_neg hname, if_neg hname, h.equal other hr]
  similar other := by
    rw [get?_assign, get?_assign]
    by_cases hname : name = other
    · subst hname
      rw [if_pos rfl, if_pos rfl]
      exact (h.similar name).merge new replaceEqual
    · rw [if_neg hname, if_neg hname]
      exact h.similar other

theorem foldName (h : types.Agrees read others) (name : String) (tags : List UsageTag) :
    (Usage.foldName types name tags).Agrees read (Usage.foldName others name tags) := by
  have hcandidate : Usage.candidate? tags (types.get? name) =
      Usage.candidate? tags (others.get? name) := by
    simp only [Usage.candidate?, (h.similar name).isNumber_eq]
  unfold Usage.foldName
  dsimp only
  rw [(h.similar name).atLeast_eq, hcandidate]
  split
  · exact h
  · split
    · exact h.assign name _ false
    · exact h

theorem fold (h : types.Agrees read others) (usage : Usage) :
    (usage.fold types).Agrees read (usage.fold others) := by
  unfold Usage.fold
  generalize usage.sorted = entries
  induction entries generalizing types others with
  | nil => exact h
  | cons entry entries ih => exact ih (h.foldName entry.1 entry.2)

/-- The signature of a function whose parameters are read. -/
theorem signatureOf_eq (h : types.Agrees read others) {f : DeclaredFunction}
    (hp : ∀ p ∈ f.params, ∀ name, p.name = some name → read name) (returned : Estimate) :
    Typing.signatureOf types f returned = Typing.signatureOf others f returned := by
  have hparams : Typing.paramTypes types f.params = Typing.paramTypes others f.params :=
    Typing.paramTypes_congr fun p hmem name hname => h.equal name (hp p hmem name hname)
  unfold Typing.signatureOf Typing.signature
  rw [hparams]
  rcases (h.similar f.name).eq_or_functions with heq | ⟨a, b, ha, hb, hc, -, hfa, hfb⟩
  · rw [heq]
  · simp only [ha, hb, hc, hfa, hfb]

end TypeMap.Agrees

/-! ## Limits -/

/-- Limits that refuse no evaluation from the empty stack: some depth is allowed, and the time is
never used up. -/
structure Limits.Ample (limits : Limits) : Prop where
  depth : 0 < limits.maxDepth
  expired : ∀ reading, limits.expired reading = false

theorem Budget.ample_limits {budget : Budget}
    (h : ∀ reading, budget.deadlinePassed reading = false) : budget.limits.Ample :=
  ⟨budget.config.maxDepth_pos, h⟩

theorem Limits.Ample.later {limits : Limits} (h : limits.Ample) (readings : Nat) :
    limits.later readings = limits := by
  have hexpired : (fun reading => limits.expired (reading + readings)) = limits.expired := by
    funext reading
    rw [h.expired, h.expired]
  rw [Limits.later, hexpired]

theorem Limits.Ample.refused {scope : Typing.Scope} (h : scope.limits.Ample)
    {s : Typing.Session} (hs : s.active = []) :
    (Typing.outcome (Typing.refused scope) s).1 = false := by
  rw [Typing.outcome_refused_of_idle h.depth hs]
  exact h.expired _

/-! ## Sessions -/

namespace Typing

/-- Sessions that go alike: their maps agree, they have answered the same functions with the same
results, and their final results are the same. -/
structure Concordant (graph : CallGraph) (read : String → Prop) (nesting : Nat)
    (stack : List (Option String)) (s t : Session) : Prop where
  nesting : s.nesting = nesting ∧ t.nesting = nesting
  active : s.active = stack ∧ t.active = stack
  types : s.types.Agrees read t.types
  answered : s.answered = t.answered
  final : ∀ f ∈ graph.functions, finalReturn? s.toKnowledge f = finalReturn? t.toKnowledge f
  noted : ∀ name e, s.answered.get? name = some e →
    s.returns.get? name = some e ∧ t.returns.get? name = some e

namespace Concordant

variable {graph : CallGraph} {read : String → Prop} {nesting : Nat} {stack : List (Option String)}
variable {s t : Session}

/-- The maps may be known to agree on other names. -/
theorem on {more : String → Prop} (h : Concordant graph read nesting stack s t)
    (hequal : ∀ name, more name → s.types.get? name = t.types.get? name) :
    Concordant graph more nesting stack s t where
  nesting := h.nesting
  active := h.active
  types := ⟨hequal, h.types.similar⟩
  answered := h.answered
  final := h.final
  noted := h.noted

/-- The stack and the counters may change. -/
theorem bookkeep (h : Concordant graph read nesting stack s t) {nesting' n m : Nat}
    {stack' a b : List (Option String)} (hnesting : n = nesting' ∧ m = nesting')
    (hactive : a = stack' ∧ b = stack') (readings readings' : Nat) :
    Concordant graph read nesting' stack'
      { s with active := a, nesting := n, readings := readings }
      { t with active := b, nesting := m, readings := readings' } where
  nesting := hnesting
  active := hactive
  types := h.types
  answered := h.answered
  final := h.final
  noted := h.noted

theorem assign (h : Concordant graph read nesting stack s t) (name : String) (e : Estimate)
    (replaceEqual : Bool) :
    Concordant graph read nesting stack { s with types := s.types.assign name e replaceEqual }
      { t with types := t.types.assign name e replaceEqual } where
  nesting := h.nesting
  active := h.active
  types := h.types.assign name e replaceEqual
  answered := h.answered
  final := h.final
  noted := h.noted

theorem record (h : Concordant graph read nesting stack s t) (name : String) (e : Estimate) :
    Concordant graph read nesting stack (outcome (record name e) s).2
      (outcome (record name e) t).2 where
  nesting := h.nesting
  active := h.active
  types := h.types
  answered := congrArg ((name, e) :: ·) h.answered
  final f hf := by
    show ((s.returns.set name e).get? f.name).filter _ =
      ((t.returns.set name e).get? f.name).filter _
    rw [Table.get?_set, Table.get?_set]
    split
    · rfl
    · exact h.final f hf
  noted other value hvalue := by
    rw [outcome_record, Entries.get?] at hvalue
    rw [outcome_record, outcome_record, Table.get?_set, Table.get?_set]
    split at hvalue
    · rename_i heq
      rw [if_pos heq, if_pos heq]
      exact ⟨hvalue, hvalue⟩
    · rename_i hne
      rw [if_neg hne, if_neg hne]
      exact h.noted other value hvalue

end Concordant

/-- Sessions that agree on all that is read stay in step, if functions may be evaluated at all. -/
theorem simulation_concordant {scope : Scope} {region : Region scope.graph} {read : String → Prop}
    (hread : ∀ name, region.read name → read name) (hample : scope.limits.Ample) :
    Simulation scope region (Concordant scope.graph read) where
  nesting h := h.nesting
  active h := h.active
  types h hr := h.types.equal _ (hread _ hr)
  answered h _ := by rw [h.answered]
  final h hf := h.final _ hf
  returned := by
    intro nesting s t f h _ hor
    rcases hor with hsome | hrefused
    · obtain ⟨e, he⟩ := Option.isSome_iff_exists.1 hsome
      rw [(h.noted _ e he).1, (h.noted _ e he).2]
    · rw [hample.refused h.active.1] at hrefused
      cases hrefused
  clock s t h := by
    rw [outcome_expired, outcome_expired, hample.expired, hample.expired]
    exact ⟨rfl, h.bookkeep h.nesting h.active _ _⟩
  descend h := h.bookkeep (h.nesting.imp (congrArg (· + 1)) (congrArg (· + 1))) h.active _ _
  ascend h := h.bookkeep (h.nesting.imp (congrArg (· - 1)) (congrArg (· - 1))) h.active _ _
  enter h _ _ _ := h.bookkeep h.nesting (h.active.imp (congrArg _) (congrArg _)) _ _
  finish e h _ _ _ :=
    (h.bookkeep h.nesting (h.active.imp (congrArg List.tail) (congrArg List.tail)) _ _).record _ e
  enterLiteral h := h.bookkeep h.nesting (h.active.imp (congrArg _) (congrArg _)) _ _
  leaveLiteral h :=
    h.bookkeep h.nesting (h.active.imp (congrArg List.tail) (congrArg List.tail)) _ _
  offer e _ s t h := ⟨rfl, h.assign _ e false⟩
  sign := by
    intro nesting stack s t f h hf hreturns
    rw [outcome_writeSignature, outcome_writeSignature, ← hreturns]
    cases s.returns.get? f.name with
    | none => exact h
    | some returned =>
      have hsignature : signatureOf s.types f returned = signatureOf t.types f returned :=
        h.types.signatureOf_eq
          (fun p hp name hname => hread name (region.read_params hf hp hname)) returned
      dsimp only
      rw [hsignature]
      exact h.assign f.name _ true

/-! ## Rounds -/

/-- Knowledge that rounds cannot tell apart. -/
structure Alike (graph : CallGraph) (read : String → Prop) (known other : Knowledge) : Prop where
  types : known.types.Agrees read other.types
  final : ∀ f ∈ graph.functions, finalReturn? known f = finalReturn? other f

namespace Alike

variable {graph : CallGraph} {read : String → Prop} {known other more : Knowledge}

theorem refl (graph : CallGraph) (read : String → Prop) (known : Knowledge) :
    Alike graph read known known where
  types := ⟨fun _ _ => rfl, fun _ => .same _⟩
  final _ _ := rfl

theorem trans (h : Alike graph read known other) (h' : Alike graph read other more) :
    Alike graph read known more where
  types := h.types.trans h'.types
  final f hf := (h.final f hf).trans (h'.final f hf)

theorem start (h : Alike graph read known other) :
    Concordant graph read 0 [] (Session.start known) (Session.start other) where
  nesting := ⟨rfl, rfl⟩
  active := ⟨rfl, rfl⟩
  types := h.types
  answered := rfl
  final := h.final
  noted _ _ hnone := nomatch hnone

end Alike

/-- Rounds from knowledge that agrees on all that is read give knowledge that does. -/
theorem Alike.round {program : Place} {limits : Limits}
    {region : Region (CallGraph.ofProgram program)} {read : String → Prop} {known other : Knowledge}
    (cover : region.Covers program.node) (hread : ∀ name, region.read name → read name)
    (hample : limits.Ample)
    (h : Alike (CallGraph.ofProgram program) read known other) :
    Alike (CallGraph.ofProgram program) read
      (Inference.round ⟨CallGraph.ofProgram program, limits⟩ program known)
      (Inference.round ⟨CallGraph.ofProgram program, limits⟩ program other) := by
  let scope : Scope := ⟨CallGraph.ofProgram program, limits⟩
  have sim : Simulation scope region (Concordant scope.graph read) :=
    simulation_concordant hread hample
  have hsession := (sim.session cover _ _ h.start).2
  have husage : Usage.ofProgram program known.types = Usage.ofProgram program other.types :=
    Usage.ofProgram_congr program h.types.mem_names_iff
  unfold Inference.round
  rw [husage]
  exact ⟨hsession.types.fold _, hsession.final⟩

end Typing

end ScriptTypes
