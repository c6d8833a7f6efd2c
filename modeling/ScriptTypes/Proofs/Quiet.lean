import ScriptTypes.Proofs.FirstOrder
import ScriptTypes.Proofs.Signing

/-!
# Signatures after a quiet round

A signature is written while the types of the parameters may still change, so at the end of a round
it may be out of date. After a round that leaves the map as it was it is not. Confidences never
fall, so at every moment of such a round each name was held as firmly as before it; what was held of
a parameter was never replaced, and the name of a function only by its signature.

* `Quiet`: every name is held as firmly as before.
* `Estimate.Tells`: what the name of a function is held for, given its signature and its result.
* `told_writeSignature`, `told_steps`: a signature once written stays what it is.
* `signatures_consistent`: the names of the functions after a quiet round.
-/

namespace ScriptTypes

open Typing Relation

namespace Inference

/-! ## Quiet stretches -/

/-- A map follows another, and every name is held as firmly as there. -/
structure Quiet (graph : CallGraph) (before after : TypeMap) : Prop where
  refines : before.Refines graph after
  firm : ∀ name, level (after.get? name) = level (before.get? name)

/-- Where no signature is written, estimates give way to surer ones only. -/
theorem get?_eq_of_level {before after : TypeMap} (h : before.Refines .empty after) {name : String}
    (hlevel : level (after.get? name) = level (before.get? name)) :
    after.get? name = before.get? name :=
  (eq_or_signed_of_level_eq h hlevel).resolve_right fun hsigned => absurd hsigned.1 nofun

namespace Quiet

variable {graph : CallGraph} {before middle after : TypeMap}

/-- What is quiet as a whole is quiet up to every moment of it. -/
theorem start (h : Quiet graph before after) (hstart : before.Refines graph middle)
    (hrest : middle.Refines graph after) : Quiet graph before middle := by
  refine ⟨hstart, fun name => Nat.le_antisymm ?_ (level_le_of_refines hstart name)⟩
  rw [← h.firm name]
  exact level_le_of_refines hrest name

theorem rest (h : Quiet graph before after) (hstart : before.Refines graph middle)
    (hrest : middle.Refines graph after) (name : String) :
    level (after.get? name) = level (middle.get? name) :=
  (h.firm name).trans ((h.start hstart hrest).firm name).symm

theorem get?_eq (h : Quiet graph before after) {name : String}
    (hname : graph.declares name = false) : after.get? name = before.get? name := by
  refine (eq_or_signed_of_level_eq h.refines (h.firm name)).resolve_right fun hsigned => ?_
  rw [hname] at hsigned
  exact absurd hsigned.1 nofun

/-- Names are held for functions no firmer than signatures are, if they were before. -/
theorem le_signatureMax (h : Quiet graph before after) {name : String}
    (hbefore : ∀ old, before.get? name = some old → old.type.isFunctionLike = true →
      old.confidence ≤ .signatureMax)
    {held : Estimate} (hheld : after.get? name = some held)
    (hfunction : held.type.isFunctionLike = true) : held.confidence ≤ .signatureMax := by
  rcases eq_or_signed_of_level_eq h.refines (h.firm name) with
    heq | ⟨-, old, new, -, hnew, -, hconfidence, hmax⟩
  · exact hbefore held (heq ▸ hheld) hfunction
  · cases hnew.symm.trans hheld
    rw [hconfidence]
    exact hmax

/-- The signature of a function whose parameters are no functions is the same throughout. -/
theorem signature_eq (h : Quiet graph before after) {params : List Param}
    (hparams : ∀ p ∈ params, ∀ name, p.name = some name → graph.declares name = false)
    (returns : Ty) : signature after params returns = signature before params returns := by
  have htypes : paramTypes after params = paramTypes before params :=
    paramTypes_congr fun p hp name hname => h.get?_eq (hparams p hp name hname)
  rw [signature, signature, htypes]

end Quiet

end Inference

/-! ## Signatures -/

/-- The name of a function with this signature and this result is held for the signature, or for
something that is no function and more firmly than the result allows. -/
inductive Estimate.Tells (held : Estimate) (signature : Ty) (returned : Estimate) : Prop
  | signature (h : held.type = signature)
  | other (h : held.type.isFunctionLike = false)
    (hlt : returned.confidence.ofResult < held.confidence)

namespace Inference

/-- A signature is written unless the name is held more firmly for something else. -/
theorem tells_sign {types : TypeMap} {f : DeclaredFunction} (returned : Estimate)
    (hmax : ∀ held, types.get? f.name = some held → held.type.isFunctionLike = true →
      held.confidence ≤ .signatureMax) :
    ∃ held, (types.assign f.name (signatureOf types f returned) true).get? f.name = some held ∧
      held.Tells (signature types f.params returned.type) returned := by
  have hsignature : (signatureOf types f returned).Tells
      (signature types f.params returned.type) returned := .signature rfl
  refine ⟨_, (TypeMap.get?_assign _ _ _ _ _).trans (if_pos rfl), ?_⟩
  cases hheld : types.get? f.name with
  | none =>
    simpa [Estimate.merge, Estimate.supersedes] using hsignature
  | some held =>
    by_cases hle : held.confidence ≤ (signatureOf types f returned).confidence
    · rw [merge_of_le hle]
      exact hsignature
    · have hsup : ¬(signatureOf types f returned).supersedes (some held) true = true := by
        simp only [Estimate.supersedes, Bool.true_and, Bool.or_eq_true, decide_eq_true_eq]
        rintro (hlt | heq)
        · exact hle (le_of_lt hlt)
        · rw [heq] at hle
          exact hle (le_refl _)
      rw [Estimate.merge, if_neg hsup]
      refine .other ?_ (lt_of_le_of_lt (ofResult_le_signatureOf types f returned)
        (lt_of_not_ge hle))
      -- A function that is held no firmer than signatures are would have been replaced.
      refine Bool.eq_false_iff.2 fun hfunction => hle ?_
      exact le_signatureOf_confidence hheld hfunction (hmax held hheld hfunction) returned

section

variable {program : Place} {offered : String → Prop} {before : TypeMap} {s t : Session}
variable {f : DeclaredFunction} {returned : Estimate}

/-- In a session a function has its result, and its name tells the signature that it has according
to a map. -/
structure Told (before : TypeMap) (s : Session) (f : DeclaredFunction) (returned : Estimate) :
    Prop where
  signed : Signed s f returned
  tells : ∃ held, s.types.get? f.name = some held ∧
    held.Tells (signature before f.params returned.type) returned

variable (hf : f ∈ (CallGraph.ofProgram program).functions)
variable (hparams : ∀ p ∈ f.params, ∀ name, p.name = some name →
  (CallGraph.ofProgram program).declares name = false)
variable (hmax : ∀ held, before.get? f.name = some held → held.type.isFunctionLike = true →
  held.confidence ≤ .signatureMax)

include hparams hmax

/-- Writing the signature of a function that has its result, in a quiet stretch. -/
theorem told_writeSignature
    (hquiet : Quiet (CallGraph.ofProgram program) before s.types)
    (hanswered : ¬Unanswered s f.name) (hreturns : s.returns.get? f.name = some returned) :
    Told before (outcome (writeSignature f) s).2 f returned := by
  refine ⟨signed_writeSignature hanswered hreturns, ?_⟩
  rw [outcome_writeSignature, hreturns, ← hquiet.signature_eq hparams]
  exact tells_sign returned fun held hheld => hquiet.le_signatureMax hmax hheld

include hf

/-- Another step of a quiet stretch leaves the name of the function as it is, or writes the same
signature again. -/
theorem told_step (h : Step (CallGraph.ofProgram program) offered s t)
    (hstart : before.Refines (CallGraph.ofProgram program) s.types)
    (hquiet : Quiet (CallGraph.ofProgram program) before t.types) (hs : Told before s f returned) :
    Told before t f returned := by
  have hrefines := refines_step h
  have hlevel := hquiet.rest hstart hrefines f.name
  refine ⟨signed_step h hs.signed, ?_⟩
  obtain ⟨held, hheld, htells⟩ := hs.tells
  cases h with
  | record | bookkeep => exact ⟨held, hheld, htells⟩
  | offer e _ =>
    exact ⟨held, (get?_eq_of_level (.offer s.types _ e) hlevel).trans hheld, htells⟩
  | @sign g result hg hresult =>
    by_cases hname : g.name = f.name
    · obtain rfl := CallGraph.eq_of_name_eq hg hf hname
      cases hresult.symm.trans hs.signed.returns
      have hbefore := hquiet.start hstart hrefines
      rw [← hbefore.signature_eq hparams]
      exact tells_sign returned fun held hheld => hbefore.le_signatureMax hmax hheld
    · exact ⟨held, ((TypeMap.get?_assign _ _ _ _ _).trans (if_neg hname)).trans hheld, htells⟩

theorem told_steps (h : ReflTransGen (Step (CallGraph.ofProgram program) offered) s t)
    (hstart : before.Refines (CallGraph.ofProgram program) s.types)
    (hquiet : Quiet (CallGraph.ofProgram program) before t.types) (hs : Told before s f returned) :
    Told before t f returned := by
  induction h with
  | refl => exact hs
  | tail hsteps hstep ih =>
    have hmiddle := hstart.trans (refines_steps hsteps)
    have htold := ih (hquiet.start hmiddle (refines_step hstep))
    exact told_step hf hparams hmax hstep hmiddle hquiet htold

end

/-! ## Rounds -/

/-- After a quiet round in which functions may be evaluated at all, each function is told. -/
theorem told_roundSession {program : Place} {limits : Limits} {known : Knowledge}
    (hample : limits.Ample)
    (hparams : ∀ f ∈ (CallGraph.ofProgram program).functions, ∀ p ∈ f.params, ∀ name,
      p.name = some name → (CallGraph.ofProgram program).declares name = false)
    (hmax : ∀ name held, known.types.get? name = some held → held.type.isFunctionLike = true →
      held.confidence ≤ .signatureMax)
    (hquiet : Quiet (CallGraph.ofProgram program) known.types
      (roundSession ⟨CallGraph.ofProgram program, limits⟩ program.node known).types) :
    ∀ f ∈ (CallGraph.ofProgram program).functions, ∃ returned,
      Told known.types (roundSession ⟨CallGraph.ofProgram program, limits⟩ program.node known) f
        returned := by
  let scope : Scope := ⟨CallGraph.ofProgram program, limits⟩
  let region : Region scope.graph := Region.whole program
  have cover : region.Covers program.node := Region.covers_whole program program.node
  intro f hf
  refine roundSession_establish (P := fun f s => Quiet scope.graph known.types s.types →
    ∃ returned, Told known.types s f returned) cover known ?_ ?_ f hf hquiet
  · intro f hf s hs hquiet
    obtain ⟨asked, returned, hasked, hanswered, hreturns, hrefine⟩ :=
      exists_asked_refineFunction hample (noted_start known) hf hs
    rw [hrefine] at hquiet ⊢
    have hwrite : Step scope.graph region.offered asked (outcome (writeSignature f) asked).2 := by
      rw [outcome_writeSignature, hreturns]
      exact .sign hf hreturns
    have hbefore := hquiet.start (refines_steps hasked.steps) (refines_step hwrite)
    exact ⟨returned, told_writeSignature (hparams f hf) (hmax f.name) hbefore hanswered hreturns⟩
  · intro f hf s t hstart hsteps htold hquiet
    have hrefines := refines_steps hstart
    obtain ⟨returned, htold⟩ := htold (hquiet.start hrefines (refines_steps hsteps))
    exact ⟨returned, told_steps hf (hparams f hf) (hmax f.name) hsteps hrefines hquiet htold⟩

/-- Estimates that are equal are held as firmly. -/
theorem level_eq_of_rel {old new : Option Estimate}
    (h : Option.Rel (fun a b => (a == b) = true) old new) : level new = level old := by
  cases h with
  | none => rfl
  | @some a b hsame =>
    obtain ⟨type, confidence, shape⟩ := a
    obtain ⟨type', confidence', shape'⟩ := b
    have hparts : (type == type' && decide (confidence = confidence') &&
        Estimate.sameShape shape shape') = true := by
      rw [← Estimate.same]
      exact hsame
    simp only [Bool.and_eq_true, decide_eq_true_eq] at hparts
    rw [level, level, Option.elim_some, Option.elim_some, hparts.1.2]

/-- A signature has the types of the parameters before the first rest parameter, and the type of
that one if there is one. -/
theorem signature_eq_fn (types : TypeMap) (params : List Param) (returns : Ty) :
    signature types params returns =
      .fn ((params.takeWhile fun p => !p.isRest).map fun p =>
          (p.name.bind types.get?).elim .any (·.type)) returns
        ((params.find? (·.isRest)).map fun p =>
          (p.name.bind types.get?).elim (.array .any) (·.type)) := by
  have hparts : paramTypes types params =
      ((params.takeWhile fun p => !p.isRest).map fun p =>
          (p.name.bind types.get?).elim .any (·.type),
        (params.find? (·.isRest)).map fun p =>
          (p.name.bind types.get?).elim (.array .any) (·.type)) := by
    induction params with
    | nil => rfl
    | cons p params ih =>
      by_cases hrest : p.isRest = true
      · simp [paramTypes, hrest]
      · simp [paramTypes, hrest, ih]
  rw [signature, hparts]

/-- If no parameter has the name of a function and no name is held for a function above 0.95, then
after a round that leaves the map as it was every function has a result, and its name is held for
its signature: for each parameter before the first rest parameter the type that is held of it now,
the type of the rest parameter exactly if there is one, and the type of the result. Otherwise the
name is held for something that is no function, more firmly than the result allows. -/
theorem signatures_consistent (program : Place)
    (hparams : ∀ f ∈ (CallGraph.ofProgram program).functions, ∀ p ∈ f.params,
      ∀ g ∈ (CallGraph.ofProgram program).functions, p.name ≠ some g.name)
    (budget : Budget) (hdeadline : ∀ reading, budget.deadlinePassed reading = false)
    (usage : Usage) (known : Knowledge)
    (hmax : ∀ name held, known.types.get? name = some held → held.type.isFunctionLike = true →
      held.confidence ≤ .percent 95) :
    let graph := CallGraph.ofProgram program
    let final := resolve ⟨graph, budget.limits⟩ program.node usage known
    (∀ name, Option.Rel (fun old new => (old == new) = true) (known.types.get? name)
      (final.types.get? name)) →
    ∀ f ∈ graph.functions, ∃ returned held,
      final.returns.get? f.name = some returned ∧ final.types.get? f.name = some held ∧
      (held.type.isFunctionLike = false ∧
          min (.percent 95) (max (.percent 60) returned.confidence) < held.confidence ∨
        held.type = signature final.types f.params returned.type ∧
          held.type =
            .fn ((f.params.takeWhile fun p => !p.isRest).map fun p =>
                (p.name.bind final.types.get?).elim .any (·.type)) returned.type
              ((f.params.find? (·.isRest)).map fun p =>
                (p.name.bind final.types.get?).elim (.array .any) (·.type))) := by
  intro graph final hsame f hf
  let scope : Scope := ⟨graph, budget.limits⟩
  have hnames : ∀ f ∈ graph.functions, ∀ p ∈ f.params, ∀ name, p.name = some name →
      graph.declares name = false := by
    intro f hf p hp name hname
    refine Bool.eq_false_iff.2 fun hdeclares => ?_
    obtain ⟨g, hg, heq⟩ := List.any_eq_true.1 hdeclares
    exact hparams f hf p hp g hg (hname.trans (congrArg some (of_decide_eq_true heq).symm))
  have hquiet : Quiet graph known.types final.types :=
    ⟨refines_resolve program budget.limits program.node usage known,
      fun name => level_eq_of_rel (hsame name)⟩
  -- The round is quiet up to the moment at which the uses are folded in.
  have hstart : known.types.Refines graph (roundSession scope program.node known).types :=
    refines_steps (steps_ofProgram program budget.limits program.node known)
  have hfold : (roundSession scope program.node known).types.Refines graph final.types :=
    .fold usage _
  obtain ⟨returned, hsigned, held, hheld, htells⟩ := told_roundSession
    (Budget.ample_limits hdeadline) hnames hmax (hquiet.start hstart hfold) f hf
  have hkept : final.types.get? f.name = some held :=
    (get?_eq_of_level (.fold usage _) (hquiet.rest hstart hfold f.name)).trans hheld
  refine ⟨returned, held, hsigned.returns, hkept, ?_⟩
  cases htells with
  | other hfunction hlt => exact .inl ⟨hfunction, hlt⟩
  | signature heq =>
    rw [← hquiet.signature_eq (hnames f hf)] at heq
    exact .inr ⟨heq, heq.trans (signature_eq_fn final.types f.params returned.type)⟩

/-- `var size = 5; function pick(x, ...more) { return x; } function size() {} pick(1)`. -/
def overlaid : Place where
  node :=
    ⟨0, .program, none, true, none,
      [⟨1, .variableDeclarator, none, true, none,
          [⟨2, .identifier, some .name, true, some "size", []⟩,
            ⟨3, .number, some .value, true, some "5", []⟩]⟩,
        ⟨4, .functionDeclaration, none, true, none,
          [⟨5, .identifier, some .name, true, some "pick", []⟩,
            ⟨6, .formalParameters, some .parameters, true, none,
              [⟨7, .identifier, none, true, some "x", []⟩,
                ⟨8, .restPattern, none, true, none,
                  [⟨9, .identifier, none, true, some "more", []⟩]⟩]⟩,
            ⟨10, .statementBlock, some .body, true, none,
              [⟨11, .returnStatement, none, true, none,
                [⟨12, .identifier, none, true, some "x", []⟩]⟩]⟩]⟩,
        ⟨13, .functionDeclaration, none, true, none,
          [⟨14, .identifier, some .name, true, some "size", []⟩,
            ⟨15, .formalParameters, some .parameters, true, none, []⟩,
            ⟨16, .statementBlock, some .body, true, none, []⟩]⟩,
        ⟨17, .callExpression, none, true, none,
          [⟨18, .identifier, some .callee, true, some "pick", []⟩,
            ⟨19, .arguments, some .arguments, true, none,
              [⟨20, .number, none, true, some "1", []⟩]⟩]⟩]⟩
  above := []

/-- What is known of the program in the end. -/
def overlaidEnd : Knowledge where
  types := .ofEntries [("size", .of .number .one),
    ("pick", .of (.fn [.number] .number (some (.array .any))) .signatureMax),
    ("x", .of .number .one), ("more", .of (.array .any) .restParameter)]
  returns := .ofEntries [("pick", .of .number .one), ("size", .of .void .voidReturn)]

set_option maxRecDepth 2000 in
/-- The round is quiet; `pick` is held for its signature and `size` for the number. -/
theorem signatures_consistent_overlaid :
    let graph := CallGraph.ofProgram overlaid
    let final := resolve ⟨graph, patient.limits⟩ overlaid.node .empty overlaidEnd
    graph.functions.map (·.name) = ["pick", "size"] ∧
    (∀ f ∈ graph.functions, ∀ p ∈ f.params, ∀ g ∈ graph.functions, p.name ≠ some g.name) ∧
    final = overlaidEnd ∧
    ∀ f ∈ graph.functions, ∃ returned held,
      final.returns.get? f.name = some returned ∧ final.types.get? f.name = some held ∧
      (held.type.isFunctionLike = false ∧
          min (.percent 95) (max (.percent 60) returned.confidence) < held.confidence ∨
        held.type = signature final.types f.params returned.type) := by
  intro graph final
  have hfinal : final = overlaidEnd := rfl
  have hparams : ∀ f ∈ graph.functions, ∀ p ∈ f.params, ∀ g ∈ graph.functions,
      p.name ≠ some g.name := by decide +kernel
  have hentries : ∀ entry ∈ overlaidEnd.types.entries, (entry.2 == entry.2) = true ∧
      (entry.2.type.isFunctionLike = true → entry.2.confidence ≤ .percent 95) := by
    decide +kernel
  have hmem : ∀ name held, overlaidEnd.types.get? name = some held →
      (held == held) = true ∧
        (held.type.isFunctionLike = true → held.confidence ≤ .percent 95) :=
    fun name held hheld => hentries (name, held) (Entries.mem_of_get? hheld)
  have hsame : ∀ name, Option.Rel (fun old new => (old == new) = true)
      (overlaidEnd.types.get? name) (final.types.get? name) := by
    intro name
    rw [hfinal]
    cases hheld : overlaidEnd.types.get? name with
    | none => exact .none
    | some held => exact .some (hmem name held hheld).1
  refine ⟨by decide +kernel, hparams, hfinal, fun f hf => ?_⟩
  obtain ⟨returned, held, hreturned, hheld, htells⟩ := signatures_consistent overlaid hparams
    patient (fun _ => rfl) .empty overlaidEnd (fun name held hheld => (hmem name held hheld).2)
    hsame f hf
  exact ⟨returned, held, hreturned, hheld, htells.imp_right And.left⟩

end Inference

end ScriptTypes
