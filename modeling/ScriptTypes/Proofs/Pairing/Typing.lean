import ScriptTypes.Proofs.Coupling

/-!
# Two sessions side by side

Typing in two sessions, one over a program and one over a program that holds the same expressions
with comments put in. The sessions may differ in what the expressions do not get to. One lemma for
each rule says that the two answer alike, that the answers meet a standard and that the sessions
stay related.

* `Coupled`: two computations that answer alike from related sessions and leave them related.
* `Pairing`: a relation between sessions, for each nesting of expressions and each stack of
  functions under evaluation, that the actions of the two sessions keep and that fixes whatever they
  look at.
* `Pairing.functionReturn`: asking what a function returns, with all that its evaluation does.
* `Pairing.inferWithin`: typing an expression of the region.
-/

namespace ScriptTypes

/-- A function of a program in which comments were put in. -/
structure DeclaredFunction.Commented (links : Nat → Nat → Prop) (f g : DeclaredFunction) :
    Prop where
  name : g.name = f.name
  params : List.Forall₂ (Param.Commented links) f.params g.params
  node : f.node.Commented links g.node
  isAsync : g.isAsync = f.isAsync

theorem DeclaredFunction.Commented.refl {links : Nat → Nat → Prop}
    (hlinks : ∀ label, links label label) (f : DeclaredFunction) : f.Commented links f :=
  ⟨rfl, List.forall₂_same.2 fun p _ => .refl hlinks p, .refl hlinks f.node, rfl⟩

/-- Limits that typing cannot tell apart: at each reading of the clock the time is used up in both
or in neither, and the depth is exceeded in both or in neither, as deep as evaluations get. -/
structure Limits.Agrees (limits other : Limits) : Prop where
  expired : other.expired = limits.expired
  depth {depth : Nat} : depth ≤ Typing.maxNesting + 1 →
    (other.maxDepth < depth ↔ limits.maxDepth < depth)

theorem Limits.Agrees.refl (limits : Limits) : limits.Agrees limits := ⟨rfl, fun _ => .rfl⟩

namespace Typing

/-! ## Coupled computations -/

/-- From related sessions the two computations give the same answer, of which something holds, and
end in related sessions. -/
def Coupled {α : Type} (Q : Session → Session → Prop) (P : α → Prop) (x y : SessionM α) : Prop :=
  ∀ s t, Q s t → (outcome x s).1 = (outcome y t).1 ∧ P (outcome x s).1 ∧
    Q (outcome x s).2 (outcome y t).2

namespace Coupled

variable {α β : Type} {Q : Session → Session → Prop} {P : α → Prop} {P' : β → Prop}
variable {x y : SessionM α}

theorem pure {a : α} (ha : P a) : Coupled Q P (Pure.pure a) (Pure.pure a) :=
  fun _ _ h => ⟨rfl, ha, h⟩

theorem bind {f g : α → SessionM β} (h : Coupled Q P x y)
    (hfg : ∀ a, P a → Coupled Q P' (f a) (g a)) : Coupled Q P' (x >>= f) (y >>= g) := by
  intro s t hst
  obtain ⟨heq, hx, hst'⟩ := h s t hst
  rw [outcome_bind, outcome_bind, ← heq]
  exact hfg _ hx _ _ hst'

theorem map {f : α → β} (h : Coupled Q P x y) (hf : ∀ a, P a → P' (f a)) :
    Coupled Q P' (f <$> x) (f <$> y) := by
  intro s t hst
  obtain ⟨heq, hx, hst'⟩ := h s t hst
  exact ⟨congrArg f heq, hf _ hx, hst'⟩

theorem discard (h : Coupled Q P x y) :
    Coupled Q (fun _ => True) (Functor.discard x) (Functor.discard y) := h.map fun _ _ => trivial

theorem ite {c : Prop} [Decidable c] {x' y' : SessionM α} (h : c → Coupled Q P x y)
    (h' : ¬c → Coupled Q P x' y') : Coupled Q P (if c then x else x') (if c then y else y') := by
  by_cases hc : c
  · rw [if_pos hc, if_pos hc]
    exact h hc
  · rw [if_neg hc, if_neg hc]
    exact h' hc

/-- Computations that look at the sessions first. -/
theorem get_bind {f g : Session → SessionM β}
    (h : ∀ s t, Q s t → ∃ z w, f s = z ∧ g t = w ∧ Coupled Q P' z w) :
    Coupled Q P' (get >>= f) (get >>= g) := by
  intro s t hst
  obtain ⟨z, w, hf, hg, hzw⟩ := h s t hst
  rw [outcome_get_bind, outcome_get_bind, hf, hg]
  exact hzw s t hst

end Coupled

/-- The computations of two sessions that are related. -/
def Coupling.sessions (Q : Session → Session → Prop) : Coupling SessionM SessionM where
  holds := Coupled Q
  pure := Coupled.pure
  bind := Coupled.bind

/-! ## Signatures -/

section

variable {links : Nat → Nat → Prop} {std : Standard} {types others : TypeMap}
variable {params params' : List Param}

theorem paramTypes_commented (hp : List.Forall₂ (Param.Commented links) params params')
    (h : ∀ p ∈ params, ∀ x, p.name = some x → types.get? x = others.get? x) :
    paramTypes others params' = paramTypes types params := by
  induction hp with
  | nil => rfl
  | @cons p p' params params' hpp _ ih =>
    have hknown : p.name.bind others.get? = p.name.bind types.get? := by
      cases hname : p.name with
      | none => rfl
      | some x => exact (h p List.mem_cons_self x hname).symm
    unfold paramTypes
    rw [hpp.name, hpp.isRest, hknown, ih fun q hq => h q (List.mem_cons_of_mem _ hq)]

theorem type_signature [std.Signs] {returns : Ty} (hr : std.type returns)
    (h : ∀ p ∈ params, ∀ x, p.name = some x → std.MeetsSome (types.get? x)) :
    std.type (signature types params returns) := by
  have hparams : (∀ t ∈ (paramTypes types params).1, std.type t) ∧
      ∀ t, (paramTypes types params).2 = some t → std.type t := by
    induction params with
    | nil => exact ⟨nofun, nofun⟩
    | cons p params ih =>
      obtain ⟨hpositional, hrest⟩ := ih fun q hq => h q (List.mem_cons_of_mem _ hq)
      have hknown : ∀ {fallback : Ty}, std.type fallback →
          std.type ((p.name.bind types.get?).elim fallback (·.type)) := by
        intro fallback hfallback
        cases hbind : p.name.bind types.get? with
        | none => exact hfallback
        | some e =>
          obtain ⟨x, hname, he⟩ := Option.bind_eq_some_iff.1 hbind
          exact (h p List.mem_cons_self x hname e he).type
      unfold paramTypes
      dsimp only
      split
      · refine ⟨nofun, ?_⟩
        rintro _ ⟨⟩
        exact hknown (std.type_array.2 std.type_any)
      · exact ⟨List.forall_mem_cons.2 ⟨hknown std.type_any, hpositional⟩, hrest⟩
  exact Standard.Signs.type_fn hparams.1 hr hparams.2

theorem writeSignature_commented {f g : DeclaredFunction} (h : f.Commented links g) :
    writeSignature g = writeSignature f := by
  have hparams : ∀ types : TypeMap, paramTypes types g.params = paramTypes types f.params :=
    fun types => paramTypes_commented h.params fun _ _ _ _ => rfl
  unfold writeSignature signatureOf signature
  simp only [h.name, hparams]

end

/-! ## Pairings -/

/-- A relation between the sessions over two programs, for each nesting of expressions and each
stack of functions under evaluation, that the actions keep and that fixes what the sessions look at:
the clock, the names that are read, the functions that were answered, and the results that are
final. The other results may differ until the function is evaluated, which it is unless evaluations
are refused. The functions of the first program are functions of the second; what the second
declares beside them is neither read nor offered anything. -/
structure Pairing (left right : Scope) (region : Region left.graph) (links : Nat → Nat → Prop)
    (std : Standard) (R : Nat → List (Option String) → Session → Session → Prop) : Prop where
  depth {depth : Nat} : depth ≤ maxNesting + 1 →
    (right.limits.maxDepth < depth ↔ left.limits.maxDepth < depth)
  function? {name : String} {f : DeclaredFunction} : left.graph.function? name = some f →
    ∃ g, right.graph.function? name = some g ∧ f.Commented links g
  function?_none {name : String} : left.graph.function? name = none →
    region.read name ∨ region.offered name → right.graph.function? name = none
  functionAt? {n n' : Node} : region.typed n → n.kind.isFunctionLiteral = true →
    n.Commented links n' → Option.Rel (DeclaredFunction.Commented links)
      (left.graph.functionAt? n) (right.graph.functionAt? n')
  nesting {nesting : Nat} {stack : List (Option String)} {s t : Session} : R nesting stack s t →
    s.nesting = nesting ∧ t.nesting = nesting
  active {nesting : Nat} {stack : List (Option String)} {s t : Session} : R nesting stack s t →
    s.active = stack ∧ t.active = stack
  types {nesting : Nat} {stack : List (Option String)} {s t : Session} {name : String} :
    R nesting stack s t → region.read name →
      s.types.get? name = t.types.get? name ∧ std.MeetsSome (s.types.get? name)
  answered {nesting : Nat} {stack : List (Option String)} {s t : Session} {f : DeclaredFunction} :
    R nesting stack s t → f ∈ left.graph.functions →
      s.answered.get? f.name = t.answered.get? f.name ∧ std.MeetsSome (s.answered.get? f.name)
  final {nesting : Nat} {stack : List (Option String)} {s t : Session} {f : DeclaredFunction} :
    R nesting stack s t → f ∈ left.graph.functions →
      finalReturn? s.toKnowledge f = finalReturn? t.toKnowledge f ∧
        std.MeetsSome (finalReturn? s.toKnowledge f)
  returned {nesting : Nat} {s t : Session} {f : DeclaredFunction} : R nesting [] s t →
    f ∈ left.graph.functions →
      (s.answered.get? f.name).isSome ∨ (outcome (refused left) s).1 = true →
      s.returns.get? f.name = t.returns.get? f.name
  clock {nesting : Nat} {stack : List (Option String)} :
    Coupled (R nesting stack) (fun _ => True) (expired left) (expired right)
  descend {nesting : Nat} {stack : List (Option String)} {s t : Session} : R nesting stack s t →
    R (nesting + 1) stack (outcome descend s).2 (outcome descend t).2
  ascend {nesting : Nat} {stack : List (Option String)} {s t : Session} :
    R (nesting + 1) stack s t → R nesting stack (outcome ascend s).2 (outcome ascend t).2
  enter {nesting : Nat} {stack : List (Option String)} {s t : Session} {f : DeclaredFunction} :
    R nesting stack s t → f ∈ left.graph.functions → some f.name ∉ stack → Unanswered s f.name →
      R nesting (some f.name :: stack) (outcome (enter (some f.name)) s).2
        (outcome (enter (some f.name)) t).2
  finish {nesting : Nat} {stack : List (Option String)} {s t : Session} {f : DeclaredFunction}
    {e : Estimate} : R nesting (some f.name :: stack) s t → f ∈ left.graph.functions →
      some f.name ∉ stack → std.Meets e → (f.isAsync = true → e.type.isPromise = true) →
      R nesting stack (outcome (leave *> record f.name e) s).2
        (outcome (leave *> record f.name e) t).2
  enterLiteral {nesting : Nat} {stack : List (Option String)} {s t : Session} :
    R nesting stack s t → R nesting (none :: stack) (outcome (Typing.enter none) s).2
      (outcome (Typing.enter none) t).2
  leaveLiteral {nesting : Nat} {stack : List (Option String)} {s t : Session} :
    R nesting (none :: stack) s t → R nesting stack (outcome leave s).2 (outcome leave t).2
  offer {nesting : Nat} {stack : List (Option String)} {s t : Session} {name : String}
    {e : Estimate} : R nesting stack s t → region.offered name → std.Meets e →
      R nesting stack (outcome (assign name e false) s).2 (outcome (assign name e false) t).2
  sign {nesting : Nat} {stack : List (Option String)} {s t : Session} {f : DeclaredFunction} :
    R nesting stack s t → f ∈ left.graph.functions →
      s.returns.get? f.name = t.returns.get? f.name →
      R nesting stack (outcome (writeSignature f) s).2 (outcome (writeSignature f) t).2

/-- Typers for the expressions inside those that are typed with a stack: they answer alike with the
stack and with one more function on it, and whether that goes too deep is the same for both. -/
structure Typers (left right : Scope) (region : Region left.graph) (links : Nat → Nat → Prop)
    (std : Standard) (Q : List (Option String) → Session → Session → Prop)
    (infer infer' : Node → SessionM Estimate) (stack : List (Option String)) : Prop where
  depth : right.limits.maxDepth < stack.length + 1 ↔ left.limits.maxDepth < stack.length + 1
  here {n n' : Node} : region.typed n → n.Commented links n' →
    Coupled (Q stack) std.Meets (infer n) (infer' n')
  within (function : Option String) {n n' : Node} : region.typed n → n.Commented links n' →
    Coupled (Q (function :: stack)) std.Meets (infer n) (infer' n')

namespace Pairing

variable {left right : Scope} {region : Region left.graph} {links : Nat → Nat → Prop}
variable {std : Standard} {R : Nat → List (Option String) → Session → Session → Prop}

section

variable {infer infer' : Node → SessionM Estimate} {nesting : Nat} {stack : List (Option String)}
variable {n n' : Node}
variable (p : Pairing left right region links std R)
variable (hi : Typers left right region links std (R nesting) infer infer' stack)

/-! ## Results of functions -/

include p in
theorem offered {name : String} {e : Estimate} (ho : region.offered name) (he : std.Meets e) :
    Coupled (R nesting stack) (fun _ => True) (assign name e false) (assign name e false) :=
  fun _ _ hst => ⟨rfl, trivial, p.offer hst ho he⟩

include p hi in
theorem refused : Coupled (R nesting stack) (fun _ => True) (refused left) (refused right) := by
  refine .get_bind fun s t hst => ⟨_, _, rfl, rfl, ?_⟩
  obtain ⟨hs, ht⟩ := p.active hst
  simp only [hs, ht, hi.depth]
  exact .ite (fun _ => .pure trivial) fun _ => p.clock

section

variable (ht : ∀ {n n' : Node}, region.typed n → n.Commented links n' →
  Coupled (R nesting stack) std.Meets (infer n) (infer' n'))

include ht

theorem bestReturn {nodes nodes' : List Node}
    (hnodes : List.Forall₂ (Node.Commented links) nodes nodes')
    (htyped : ∀ c ∈ nodes, region.typed c) {best : Option Estimate} (hbest : std.MeetsSome best) :
    Coupled (R nesting stack) std.MeetsSome (bestReturn infer best nodes)
      (bestReturn infer' best nodes') := by
  induction hnodes generalizing best with
  | nil => exact .pure hbest
  | cons hc _ ih =>
    refine (ht (htyped _ List.mem_cons_self) hc).bind fun e he => ?_
    refine ih (fun d hd => htyped d (List.mem_cons_of_mem _ hd)) ?_
    split
    · exact Standard.meetsSome_some he
    · exact hbest

theorem bodyReturn (hn : region.evaluated n) (h : n.Commented links n') (isAsync : Bool) :
    Coupled (R nesting stack) std.Meets (bodyReturn infer n isAsync)
      (bodyReturn infer' n' isAsync) := by
  refine (bestReturn ht h.returnExpressions (fun c hc => region.typed_return hn hc)
    Standard.meetsSome_none).bind fun best hbest => .pure ?_
  refine Standard.meets_asynchronous (Standard.meets_getD hbest ?_) isAsync
  exact Standard.meets_percent (std.type_prim _) (by decide)

end

include p hi in
theorem literalReturn (hn : region.evaluated n) (h : n.Commented links n') :
    Coupled (R nesting stack) std.MeetsSome (literalReturn left infer n)
      (literalReturn right infer' n') := by
  refine (p.refused hi).bind fun refused _ => ?_
  split
  · exact .pure Standard.meetsSome_none
  · refine Coupled.map (P := std.Meets) (fun s t hst => ?_) fun e he => Standard.meetsSome_some he
    rw [h.isAsync]
    obtain ⟨hanswer, hmeets, hbody⟩ :=
      bodyReturn (hi.within none) hn h n.isAsync _ _ (p.enterLiteral hst)
    exact ⟨hanswer, hmeets, p.leaveLiteral hbody⟩

include p hi in
/-- The two sessions note the same result, so they write signatures that are related. -/
theorem evaluate {f g : DeclaredFunction} (hf : f ∈ left.graph.functions) (h : f.Commented links g)
    {s t : Session} (hst : R nesting stack s t) (hstack : some f.name ∉ stack)
    (hopen : Unanswered s f.name) :
    (outcome (evaluate infer f) s).1 = (outcome (evaluate infer' g) t).1 ∧
      std.Meets (outcome (evaluate infer f) s).1 ∧
      R nesting stack (outcome (evaluate infer f) s).2 (outcome (evaluate infer' g) t).2 := by
  have hentered := p.enter hst hf hstack hopen
  obtain ⟨hanswer, hmeets, hbody⟩ := bodyReturn (hi.within (some f.name))
    (region.evaluated_function hf) h.node f.isAsync _ _ hentered
  unfold Typing.evaluate Typing.evaluating
  rw [writeSignature_commented h, h.name, h.isAsync]
  refine ⟨hanswer, hmeets, ?_⟩
  simp only [outcome_bind, outcome_pure, ← hanswer]
  refine p.sign (p.finish hbody hf hstack hmeets (isPromise_bodyReturn infer f.node _ _)) hf ?_
  exact (get?_returns_record _ _ _).trans (get?_returns_record _ _ _).symm

include p hi in
theorem functionReturn {f g : DeclaredFunction} (hf : f ∈ left.graph.functions)
    (h : f.Commented links g) :
    Coupled (R nesting stack) std.MeetsSome (functionReturn left infer f)
      (functionReturn right infer' g) := by
  intro s t hst
  obtain ⟨hs, ht⟩ := p.active hst
  obtain ⟨hanswered, hmeets⟩ := p.answered hst hf
  obtain ⟨hfinal, hfirm⟩ := p.final hst hf
  have hfinal' : finalReturn? t.toKnowledge g = finalReturn? s.toKnowledge f := by
    rw [finalReturn?, h.name]
    exact hfinal.symm
  rw [outcome_functionReturn, outcome_functionReturn, hs, ht, h.name, ← hanswered, hfinal']
  split
  · exact ⟨rfl, Standard.meetsSome_none, hst⟩
  · rename_i hstack
    cases ha : s.answered.get? f.name with
    | some e =>
      rw [ha] at hmeets
      exact ⟨rfl, hmeets, hst⟩
    | none =>
      cases hr : finalReturn? s.toKnowledge f with
      | some e =>
        rw [hr] at hfirm
        exact ⟨rfl, hfirm, hst⟩
      | none =>
        obtain ⟨hrefused, -, hst'⟩ := p.refused hi s t hst
        obtain ⟨readings, hclock⟩ := refused_frame left s
        have hopen : Unanswered (outcome (Typing.refused left) s).2 f.name :=
          Unanswered.congr ⟨ha, hr⟩ (by rw [hclock]) (by rw [hclock])
        dsimp only
        rw [← hrefused]
        split
        · exact ⟨rfl, Standard.meetsSome_none, hst'⟩
        · obtain ⟨hanswer, hresult, hafter⟩ := p.evaluate hi hf h hst' hstack hopen
          exact ⟨congrArg some hanswer, Standard.meetsSome_some hresult, hafter⟩

include p hi in
theorem callbackReturn (hn : region.typed n) (h : n.Commented links n') :
    Coupled (R nesting stack) std.MeetsSome (callbackReturn left infer n)
      (callbackReturn right infer' n') := by
  have hc := h.unwrapParens
  have htyped := region.typed_unwrapParens hn
  unfold Typing.callbackReturn
  dsimp only
  rw [hc.kind, hc.identifierName?]
  split
  · rename_i hliteral
    exact p.literalReturn hi (region.evaluated_literal htyped hliteral) hc
  · cases hname : n.unwrapParens.identifierName? with
    | none => exact .pure Standard.meetsSome_none
    | some name =>
      dsimp only [Option.bind_some]
      cases hf : left.graph.function? name with
      | none =>
        have hread : region.read name := by
          unfold Node.identifierName? at hname
          split at hname
          · exact region.read_identifier htyped ‹_› hname
          · cases hname
        rw [p.function?_none hf (.inl hread)]
        exact .pure Standard.meetsSome_none
      | some f =>
        obtain ⟨g, hg, hfg⟩ := p.function? hf
        rw [hg]
        exact p.functionReturn hi (List.mem_of_find?_eq_some hf) hfg

/-! ## Names and functions -/

include p hi in
theorem nameType {name : Option String} (hr : ∀ x, name = some x → region.read x) :
    Coupled (R nesting stack) std.Meets (nameType left infer name)
      (nameType right infer' name) := by
  unfold Typing.nameType
  cases name with
  | none => exact .pure Standard.meets_unknown
  | some x =>
    have hread := hr x rfl
    have hlook : Coupled (R nesting stack) std.Meets
        (get >>= fun s : Session => Pure.pure ((s.types.get? x).getD Estimate.unknown))
        (get >>= fun s : Session => Pure.pure ((s.types.get? x).getD Estimate.unknown)) := by
      refine .get_bind fun s t hst => ⟨_, _, rfl, rfl, ?_⟩
      obtain ⟨htypes, hmeets⟩ := p.types hst hread
      rw [← htypes]
      exact .pure (Standard.meets_getD hmeets Standard.meets_unknown)
    dsimp only
    cases hf : left.graph.function? x with
    | none =>
      rw [p.function?_none hf (.inl hread)]
      exact hlook
    | some f =>
      obtain ⟨g, hg, hfg⟩ := p.function? hf
      rw [hg]
      refine (p.functionReturn hi (List.mem_of_find?_eq_some hf) hfg).discard.bind fun _ _ => ?_
      exact hlook

include p hi in
theorem functionLiteralType [std.Signs] (hn : region.typed n) (hk : n.kind.isFunctionLiteral = true)
    (h : n.Commented links n') :
    Coupled (R nesting stack) std.Meets (functionLiteralType left infer n)
      (functionLiteralType right infer' n') := by
  have hev := region.evaluated_literal hn hk
  unfold Typing.functionLiteralType
  rcases rel_cases (p.functionAt? hn hk h) with ⟨hl, hr⟩ | ⟨f, g, hl, hr, hfg⟩
  · rw [hl, hr]
    refine (p.literalReturn hi hev h).bind fun returned hreturned => ?_
    split
    · exact .pure (Standard.meets_percent (std.type_generic.2 (by simp)) (by decide))
    · rename_i e
      refine .get_bind fun s t hst => ⟨_, _, rfl, rfl, ?_⟩
      have htypes : ∀ q ∈ n.params, ∀ x, q.name = some x →
          s.types.get? x = t.types.get? x ∧ std.MeetsSome (s.types.get? x) :=
        fun q hq x hx => p.types hst (region.read_param hev hq hx)
      have hsignature : signature t.types n'.params e.type = signature s.types n.params e.type := by
        rw [signature, signature,
          paramTypes_commented h.params fun q hq x hx => (htypes q hq x hx).1]
      rw [hsignature]
      refine .pure (Standard.meets_percent (type_signature (hreturned e rfl).type ?_) (by decide))
      exact fun q hq x hx => (htypes q hq x hx).2
  · rw [hl, hr]
    dsimp only
    rw [hfg.name]
    refine p.nameType hi fun x hx => ?_
    cases hx
    exact region.read_literal hn hk hl

/-! ## Callbacks of array methods -/

include hi in
theorem callbackSeeds {args args' : List Node}
    (hargs : List.Forall₂ (Node.Commented links) args args')
    (htyped : ∀ c ∈ args, region.typed c) {receiver : Estimate} (hreceiver : std.Meets receiver)
    {element : Ty} (helement : receiver.type = .array element) (method : String) :
    Coupled (R nesting stack) (fun seeds => ∀ e ∈ seeds, std.Meets e)
      (callbackSeeds infer receiver element method args)
      (callbackSeeds infer' receiver element method args') := by
  have harray : std.Meets (receiver.faded .callbackDecay) := hreceiver.faded (n := 90) (by decide)
  have hitem : std.Meets (.of element (receiver.faded .callbackDecay).confidence) :=
    harray.element helement
  have hindex : std.Meets (.of .number .methodReturn) := Standard.meets_prim _ rfl _
  unfold Typing.callbackSeeds
  dsimp only
  split
  · exact .pure (by simp [harray, hitem, hindex])
  · split
    · exact .pure (by simp [hitem])
    · split
      · have hdefault : Coupled (R nesting stack) (fun seeds => ∀ e ∈ seeds, std.Meets e)
            (Pure.pure [.of element (receiver.faded .callbackDecay).confidence,
              .of element (receiver.faded .callbackDecay).confidence, .of .number .methodReturn,
              receiver.faded .callbackDecay])
            (Pure.pure [.of element (receiver.faded .callbackDecay).confidence,
              .of element (receiver.faded .callbackDecay).confidence, .of .number .methodReturn,
              receiver.faded .callbackDecay]) := .pure (by simp [harray, hitem, hindex])
        cases hargs with
        | nil => exact hdefault
        | cons _ hrest =>
          cases hrest with
          | nil => exact hdefault
          | cons hc _ =>
            refine (hi.here (htyped _ (by simp)) hc).bind fun e he => .pure ?_
            have hfirst : std.Meets (if Confidence.elementMin ≤ e.confidence then e
                else .of element (receiver.faded .callbackDecay).confidence) := by
              split
              · exact he
              · exact hitem
            simp [harray, hitem, hindex, hfirst]
      · exact .pure (by simp)

include p in
theorem seedParams {params params' : List Param}
    (hparams : List.Forall₂ (Param.Commented links) params params')
    (hoffered : ∀ q ∈ params, ∀ x, q.name = some x → region.offered x) {seeds : List Estimate}
    (hseeds : ∀ e ∈ seeds, std.Meets e) :
    Coupled (R nesting stack) (fun _ => True) (seedParams (params.zip seeds))
      (seedParams (params'.zip seeds)) := by
  induction hparams generalizing seeds with
  | nil => exact .pure trivial
  | @cons q q' params params' hq _ ih =>
    cases seeds with
    | nil => exact .pure trivial
    | cons seed seeds =>
      obtain ⟨hseed, hseeds⟩ := List.forall_mem_cons.1 hseeds
      have hrest := ih (fun r hr => hoffered r (List.mem_cons_of_mem _ hr)) hseeds
      rw [List.zip_cons_cons, List.zip_cons_cons, Typing.seedParams, Typing.seedParams]
      rw [hq.name, hq.isRest]
      dsimp only
      split
      · rename_i name hname
        split
        · exact hrest
        · exact (p.offered (hoffered q List.mem_cons_self name hname) hseed).bind fun _ _ => hrest
      · exact hrest

include p hi in
theorem bindCallbacks {args args' : List Node}
    (hargs : List.Forall₂ (Node.Commented links) args args')
    (htyped : ∀ c ∈ args, region.typed c) {receiver : Estimate} (hreceiver : std.Meets receiver)
    (method : String) :
    Coupled (R nesting stack) (fun _ => True) (bindCallbacks infer receiver method args)
      (bindCallbacks infer' receiver method args') := by
  unfold Typing.bindCallbacks
  cases hargs with
  | nil => cases receiver.type <;> exact .pure trivial
  | @cons first first' rest rest' hc hrest =>
    have hcallback := hc.unwrapParens
    cases helement : receiver.type with
    | array element =>
      dsimp only
      rw [hcallback.kind]
      split
      · rename_i hliteral
        have hev := region.evaluated_literal
          (region.typed_unwrapParens (htyped first List.mem_cons_self)) hliteral
        refine (callbackSeeds hi (.cons hc hrest) htyped hreceiver helement method).bind
          fun seeds hseeds => ?_
        exact p.seedParams hcallback.params (fun q hq x hx => region.offered_param hev hq hx) hseeds
      · exact .pure trivial
    | _ => exact .pure trivial

/-! ## Calls -/

include p hi in
theorem bindArguments {params params' : List Param}
    (hparams : List.Forall₂ (Param.Commented links) params params')
    (hoffered : ∀ q ∈ params, ∀ x, q.name = some x → region.offered x) {args args' : List Node}
    (hargs : List.Forall₂ (Node.Commented links) args args')
    (htyped : ∀ c ∈ args, region.typed c) :
    Coupled (R nesting stack) (fun _ => True) (bindArguments infer (params.zip args))
      (bindArguments infer' (params'.zip args')) := by
  induction hparams generalizing args args' with
  | nil => exact .pure trivial
  | @cons q q' params params' hq _ ih =>
    cases hargs with
    | nil => exact .pure trivial
    | @cons c c' args args' hc hargs =>
      have hrest := ih (fun r hr => hoffered r (List.mem_cons_of_mem _ hr)) hargs
        fun d hd => htyped d (List.mem_cons_of_mem _ hd)
      rw [List.zip_cons_cons, List.zip_cons_cons, Typing.bindArguments, Typing.bindArguments]
      rw [hq.name, hq.isRest]
      dsimp only
      split
      · rename_i name hname
        split
        · exact hrest
        · refine (hi.here (htyped c List.mem_cons_self) hc).bind fun e he => ?_
          exact (p.offered (hoffered q List.mem_cons_self name hname) he).bind fun _ _ => hrest
      · exact hrest

include p hi in
theorem immediateCall {callee callee' : Node} (hn : region.typed n) (h : n.Commented links n')
    (hf : region.evaluated callee) (hc : callee.Commented links callee') :
    Coupled (R nesting stack) std.Meets (immediateCall left infer n callee)
      (immediateCall right infer' n' callee') := by
  unfold Typing.immediateCall
  refine (p.bindArguments hi hc.params (fun q hq x hx => region.offered_param hf hq hx)
    h.callArguments fun c hc => region.typed_argument hn hc).bind fun _ _ => ?_
  refine (p.literalReturn hi hf hc).bind fun returned hreturned => .pure ?_
  exact Standard.meets_getD hreturned Standard.meets_unknownCall

include hi in
theorem knownCall (hn : region.typed n) (h : n.Commented links n') :
    Coupled (R nesting stack) std.Meets (knownCall infer n) (knownCall infer' n') :=
  (Coupling.sessions (R nesting stack)).knownCall hi.here hn h

include p hi in
theorem namedCall (hn : region.typed n) (h : n.Commented links n') {name : Option String}
    (hr : ∀ x, name = some x → left.graph.function? x = none → region.read x) :
    Coupled (R nesting stack) std.Meets (namedCall left infer n name)
      (namedCall right infer' n' name) := by
  have hknown : Coupled (R nesting stack) std.Meets (Typing.knownCall infer n)
      (Typing.knownCall infer' n') :=
    knownCall hi hn h
  unfold Typing.namedCall
  cases name with
  | none => exact .get_bind fun s t hst => ⟨_, _, rfl, rfl, hknown⟩
  | some x =>
    dsimp only [Option.bind_some]
    cases hf : left.graph.function? x with
    | none =>
      have hread := hr x rfl hf
      rw [p.function?_none hf (.inl hread)]
      refine .get_bind fun s t hst => ⟨_, _, rfl, rfl, ?_⟩
      obtain ⟨htypes, hmeets⟩ := p.types hst hread
      rw [← htypes]
      split
      · rename_i result hresult
        obtain ⟨e, he, hcalled⟩ := Option.bind_eq_some_iff.1 hresult
        exact .pure (Standard.meets_calledResult? (hmeets e he) hcalled)
      · exact hknown
    | some f =>
      obtain ⟨g, hg, hfg⟩ := p.function? hf
      rw [hg]
      have hmem := List.mem_of_find?_eq_some hf
      refine (p.functionReturn hi hmem hfg).bind fun returned hreturned => ?_
      split
      · exact .pure (hreturned _ rfl)
      · exact hknown

include p hi in
theorem arrayMethod? {args args' : List Node}
    (hargs : List.Forall₂ (Node.Commented links) args args')
    (htyped : ∀ c ∈ args, region.typed c) {element : Ty} (helement : std.type element)
    (method : String) :
    Coupled (R nesting stack) (fun type => ∀ t, type = some t → std.type t)
      (Member.arrayMethod? infer (Typing.callbackReturn left infer) element method args)
      (Member.arrayMethod? infer' (Typing.callbackReturn right infer') element method args') := by
  have hsome : ∀ {t}, std.type t → ∀ u, some t = some u → std.type u :=
    fun ht u hu => Option.some.inj hu ▸ ht
  have harray : ∀ {t}, std.type t → ∀ u, some (Ty.array t) = some u → std.type u :=
    fun ht => hsome (std.type_array.2 ht)
  have hprim : ∀ q u, some (Ty.prim q) = some u → std.type u := fun q => hsome (std.type_prim q)
  have hcallback : Coupled (R nesting stack) std.MeetsSome
      (args.head?.elim (Pure.pure none) (Typing.callbackReturn left infer))
      (args'.head?.elim (Pure.pure none) (Typing.callbackReturn right infer')) := by
    cases hargs with
    | nil => exact .pure Standard.meetsSome_none
    | cons hc _ => exact p.callbackReturn hi (htyped _ List.mem_cons_self) hc
  unfold Member.arrayMethod?
  refine .ite (fun _ => ?_) fun _ => .ite (fun _ => ?_) fun _ => .ite (fun _ => ?_) fun _ =>
    .ite (fun _ => ?_) fun _ => .pure ?_
  · refine hcallback.bind fun returned hreturned => .pure ?_
    exact harray (Standard.type_usableType hreturned)
  · refine hcallback.bind fun returned hreturned => ?_
    have husable := Standard.type_usableType hreturned
    split
    · rename_i heq
      rw [heq, std.type_array] at husable
      exact .pure (harray husable)
    · exact .pure (harray husable)
  · cases hargs with
    | nil => exact .pure (hsome helement)
    | cons _ hrest =>
      cases hrest with
      | nil => exact .pure (hsome helement)
      | cons hc _ =>
        refine (hi.here (htyped _ (by simp)) hc).bind fun e he => .pure ?_
        exact hsome (Standard.type_usableType (Standard.meetsSome_some he))
  · split
    · exact .pure (harray (std.type_array.1 helement))
    · exact .pure (harray helement)
  · have helem : std.type (if element.isAny then .any else element.orUndefined) := by
      split
      · exact std.type_any
      · exact Standard.type_orUndefined helement
    have hite : ∀ {c : Prop} [Decidable c] {x y : Option Ty}, (∀ t, x = some t → std.type t) →
        (∀ t, y = some t → std.type t) → ∀ t, (if c then x else y) = some t → std.type t := by
      intro c _ x y hx hy
      split
      · exact hx
      · exact hy
    exact hite (harray helement) (hite (hprim _) (hite (hprim _) (hite (hprim _) (hite (hprim _)
      (hite (hsome helem) nofun)))))

include p hi in
theorem methodReturn? {args args' : List Node}
    (hargs : List.Forall₂ (Node.Commented links) args args')
    (htyped : ∀ c ∈ args, region.typed c) {receiver : Estimate} (hreceiver : std.Meets receiver)
    (method : String) :
    Coupled (R nesting stack) std.MeetsSome
      (Member.methodReturn? infer (Typing.callbackReturn left infer) receiver method args)
      (Member.methodReturn? infer' (Typing.callbackReturn right infer') receiver method args') := by
  have hresult : ∀ {x y : SessionM (Option Ty)},
      Coupled (R nesting stack) (fun type => ∀ t, type = some t → std.type t) x y →
      Coupled (R nesting stack) std.MeetsSome
        (do let result ← x
            Pure.pure (result.bind fun type => if type.isAny then none
              else some (.of type (min .methodReturn receiver.confidence))))
        (do let result ← y
            Pure.pure (result.bind fun type => if type.isAny then none
              else some (.of type (min .methodReturn receiver.confidence)))) :=
    fun hxy => hxy.bind fun type htype => .pure fun e he => Standard.meets_method htype he
  unfold Member.methodReturn?
  dsimp only
  split
  · refine hresult (.pure ?_)
    rintro _ ⟨⟩
    exact Standard.type_stringMethod method
  · exact hresult (.pure fun t ht => Standard.type_numberMethod ht)
  · rename_i element helement
    have htype := hreceiver.type
    rw [helement, std.type_array] at htype
    exact hresult (p.arrayMethod? hi hargs htyped htype method)
  · exact hresult (.pure fun t ht => Standard.type_genericMethod? ht)
  · exact hresult (.pure nofun)

include p hi in
theorem methodCall {callee callee' : Node} (hn : region.typed n) (h : n.Commented links n')
    (ht : region.typed callee) (hk : callee.kind = .memberExpression)
    (hc : callee.Commented links callee') :
    Coupled (R nesting stack) std.Meets (methodCall left infer n callee)
      (methodCall right infer' n' callee') := by
  have htyped : ∀ c ∈ n.callArguments, region.typed c := fun c hc => region.typed_argument hn hc
  unfold Typing.methodCall
  rw [hc.memberName?]
  rcases rel_cases (hc.child? .object) with ⟨hl, hr⟩ | ⟨object, object', hl, hr, ho⟩
  · simp only [hl, hr]
    exact .pure Standard.meets_unknownCall
  cases callee.memberName? with
  | none =>
    simp only [hl, hr]
    exact .pure Standard.meets_unknownCall
  | some method =>
    simp only [hl, hr]
    have hobject := region.typed_child ht (by rw [hk]; rfl) hl
    refine (hi.here hobject ho).bind fun receiver hreceiver => ?_
    refine (p.bindCallbacks hi h.callArguments htyped hreceiver method).bind fun _ _ => ?_
    split
    · rename_i result hresult
      obtain ⟨e, he, hcalled⟩ := Option.bind_eq_some_iff.1 hresult
      exact .pure (Standard.meets_calledResult? (hreceiver.property? he) hcalled)
    · refine (p.methodReturn? hi h.callArguments htyped hreceiver method).bind fun e he => .pure ?_
      exact Standard.meets_getD he Standard.meets_unknownCall

include p hi in
theorem callResult {callee callee' : Node} (hn : region.typed n) (h : n.Commented links n')
    (hcallee : n.child? .callee = some callee) (hc : callee.Commented links callee') :
    Coupled (R nesting stack) std.Meets (callResult left infer n callee.unwrapParens)
      (callResult right infer' n' callee'.unwrapParens) := by
  have hu := hc.unwrapParens
  unfold Typing.callResult
  rw [hu.kind, hu.text]
  split
  · rename_i hliteral
    exact p.immediateCall hi hn h (region.evaluated_callee hn hcallee hliteral) hu
  · split
    · rename_i hkind
      exact p.namedCall hi hn h fun x hx => region.read_callee hn hcallee hkind hx
    · rename_i hkind
      have hstatic := (Coupling.sessions (R nesting stack)).staticCall? hi.here hn h hu
      refine Coupled.bind hstatic fun result hresult => ?_
      split
      · exact .pure (hresult _ rfl)
      · exact p.methodCall hi hn h (region.typed_callee hn hcallee hkind) hkind hu
    · exact knownCall hi hn h

include p hi in
theorem callType (hn : region.typed n) (h : n.Commented links n') :
    Coupled (R nesting stack) std.Meets (callType left infer n) (callType right infer' n') := by
  unfold Typing.callType
  rcases rel_cases (h.child? .callee) with ⟨hl, hr⟩ | ⟨callee, callee', hl, hr, hc⟩
  · simp only [hl, hr]
    exact .pure Standard.meets_unknownCall
  · simp only [hl, hr, hc.kind, hc.isOptional, h.isOptional]
    refine (p.callResult hi hn h hl hc).bind fun e he => .pure ?_
    split
    · exact Standard.meets_withUndefined he
    · exact he

/-! ## Members -/

omit p hi in
theorem throughChain_commented (h : n.Commented links n') : throughChain n' = throughChain n := by
  funext e
  rw [throughChain, throughChain, h.isOptional]

include hi in
theorem memberType (hn : region.typed n) (hk : n.kind = .memberExpression)
    (h : n.Commented links n') :
    Coupled (R nesting stack) std.Meets (memberType infer n) (memberType infer' n') := by
  have hunknown : std.Meets (throughChain n .unknown) :=
    Standard.meets_throughChain n Standard.meets_unknown
  unfold Typing.memberType
  rw [staticProperty?_commented h, h.memberName?, throughChain_commented h]
  split
  · exact .pure (meets_staticProperty? ‹_›)
  · rcases rel_cases (h.child? .object) with ⟨hl, hr⟩ | ⟨object, object', hl, hr, ho⟩
    · simp only [hl, hr]
      exact .pure hunknown
    cases n.memberName? with
    | none =>
      simp only [hl, hr]
      exact .pure hunknown
    | some name =>
      simp only [hl, hr]
      refine (hi.here (region.typed_child hn (by rw [hk]; rfl) hl) ho).bind fun e he => .pure ?_
      refine Standard.meets_throughChain n (Standard.meets_getD (fun value hvalue => ?_) ?_)
      · exact Standard.meets_member he hvalue
      · exact Standard.meets_unknown

include hi in
theorem subscriptType (hn : region.typed n) (hk : n.kind = .subscriptExpression)
    (h : n.Commented links n') :
    Coupled (R nesting stack) std.Meets (subscriptType infer n) (subscriptType infer' n') := by
  have hindexed : ∀ receiver, indexed receiver (n'.child? .index) =
      indexed receiver (n.child? .index) := by
    intro receiver
    unfold indexed
    rcases rel_cases (h.child? .index) with ⟨hl, hr⟩ | ⟨index, index', hl, hr, hx⟩
    · rw [hl, hr]
    · rw [hl, hr]
      dsimp only
      rw [hx.kind, hx.stringValue?]
  unfold Typing.subscriptType
  rw [throughChain_commented h]
  rcases rel_cases (h.child? .object) with ⟨hl, hr⟩ | ⟨object, object', hl, hr, ho⟩
  · simp only [hl, hr]
    exact .pure (Standard.meets_throughChain n Standard.meets_unknown)
  · simp only [hl, hr, hindexed]
    refine (hi.here (region.typed_child hn (by rw [hk]; rfl) hl) ho).bind fun e he => .pure ?_
    exact Standard.meets_throughChain n (Standard.meets_indexed he _)

/-! ## The typer -/

include p in
/-- What is done inside an expression is done with one more expression around it. -/
theorem nested {α : Type} {P : α → Prop} {x y : SessionM α}
    (h : Coupled (R (nesting + 1) stack) P x y) :
    Coupled (R nesting stack) P (nested x) (nested y) := by
  intro s t hst
  obtain ⟨heq, hx, hinside⟩ := h _ _ (p.descend hst)
  exact ⟨heq, hx, p.ascend hinside⟩

include p hi in
/-- The typers of the two sessions treat their own forms alike. -/
theorem treats [std.Signs] : (Coupling.sessions (R nesting stack)).Treats region links std
    (sessionForms left infer) (sessionForms right infer') where
  infer := hi.here
  name {c} hn hasks := p.nameType hi fun x hx => by
    rcases hasks with ⟨hk, -⟩ | hk
    · exact region.read_identifier hn hk hx
    · exact region.read_shorthand hn hk hx
  functionLiteral hn hk h := p.functionLiteralType hi hn hk h
  call hn _ h := p.callType hi hn h
  member hn hk h := memberType hi hn hk h
  subscript hn hk h := subscriptType hi hn hk h

end

variable [std.Signs] (p : Pairing left right region links std R)

include p

/-- Typing an expression of the region in the two sessions, by induction on the room: an evaluation
takes as much of the depth as the expressions in it take of the room. -/
theorem inferWithin (room nesting : Nat) (stack : List (Option String))
    (hroom : stack.length + room ≤ maxNesting + 1) (n n' : Node) (hn : region.typed n)
    (h : n.Commented links n') :
    Coupled (R nesting stack) std.Meets (inferWithin left room n) (inferWithin right room n') := by
  induction room generalizing nesting stack n n' with
  | zero => exact p.clock.discard.bind fun _ _ => .pure Standard.meets_unknown
  | succ room ih =>
    have hinside : Typers left right region links std (R (nesting + 1))
        (Typing.inferWithin left room) (Typing.inferWithin right room) stack :=
      ⟨p.depth (by omega), ih _ stack (by omega) _ _,
        fun function => ih _ (function :: stack) (by simp only [List.length_cons]; omega) _ _⟩
    unfold Typing.inferWithin
    refine p.clock.bind fun late _ => .ite (fun _ => ?_) fun _ => p.nested ?_
    · obtain ⟨heq, hmeets⟩ := structuralWithin_commented std (room + 1) h
      rw [← heq]
      exact .pure hmeets
    · exact (p.treats hinside).typeOf (region.typed_unwrapParens hn) h.unwrapParens

/-- Typing an expression of the region outside all expressions, with all the room there is. -/
theorem infer (stack : List (Option String)) (hstack : stack.length ≤ 1) (n n' : Node)
    (hn : region.typed n) (h : n.Commented links n') :
    Coupled (R 0 stack) std.Meets (infer left n) (infer right n') := by
  refine .get_bind fun s t hst => ⟨_, _, rfl, rfl, ?_⟩
  obtain ⟨hs, ht⟩ := p.nesting hst
  rw [hs, ht]
  exact p.inferWithin maxNesting 0 stack (by omega) n n' hn h

/-- The typers of the two sessions, asked outside all expressions and from the empty stack. -/
theorem typers :
    Typers left right region links std (R 0) (Typing.infer left) (Typing.infer right) [] where
  depth := p.depth (by simp)
  here := p.infer [] (by simp) _ _
  within function := p.infer [function] (by simp) _ _

end Pairing

end Typing

end ScriptTypes
