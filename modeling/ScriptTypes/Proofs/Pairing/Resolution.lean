import ScriptTypes.Proofs.Pairing.Typing
import ScriptTypes.Resolution

/-!
# Two rounds side by side

Taking values apart, passing them on, and refining calls and functions in two sessions, given a
region that covers the program of the first.

* `Passing`: what passing values on needs of two sessions.
* `Passing.destructure`: binding the targets of a pattern.
* `Passing.propagateNode`: what a round does at a node.
* `Passing.refineSite`: what a round does at a call.
* `Pairing.refineFunction`: the end of a round at one function, from the empty stack.
* `Pairing.session`: all that a round does in its session.
-/

namespace ScriptTypes

/-- A call of a function by name in which comments were put in. -/
structure CallSite.Commented (links : Nat → Nat → Prop) (site site' : CallSite) : Prop where
  callee : site'.callee = site.callee
  arguments : site'.arguments = site.arguments
  node : site.node.Commented links site'.node
  caller : site'.caller = site.caller

theorem CallSite.Commented.refl {links : Nat → Nat → Prop} (hlinks : ∀ label, links label label)
    (site : CallSite) : site.Commented links site := ⟨rfl, rfl, .refl hlinks site.node, rfl⟩

theorem CallGraph.functions_commented (graph : CallGraph) :
    List.Forall₂ (DeclaredFunction.Commented Eq) graph.functions graph.functions :=
  List.forall₂_same.2 fun f _ => .refl (fun _ => rfl) f

/-- The functions of a name, where the functions of two call graphs are related one by one. -/
theorem CallGraph.function?_commented {links : Nat → Nat → Prop} {left right : CallGraph}
    (h : List.Forall₂ (DeclaredFunction.Commented links) left.functions right.functions)
    (name : String) :
    Option.Rel (DeclaredFunction.Commented links) (left.function? name) (right.function? name) :=
  (Interspersed.of_forall₂ h).find? nofun fun _ _ hf => by rw [hf.name]

theorem biUnique_eq : Relator.BiUnique (Eq : Nat → Nat → Prop) :=
  ⟨fun _ _ _ h h' => h.trans h'.symm, fun _ _ _ h h' => h.symm.trans h'⟩

/-- The functions that two nodes declare, where no label is linked to several. -/
theorem CallGraph.functionAt?_commented {links : Nat → Nat → Prop} (hlinks : Relator.BiUnique links)
    {left right : CallGraph}
    (h : List.Forall₂ (DeclaredFunction.Commented links) left.functions right.functions)
    {n n' : Node} (hn : n.Commented links n') :
    Option.Rel (DeclaredFunction.Commented links) (left.functionAt? n) (right.functionAt? n') := by
  refine (Interspersed.of_forall₂ h).find? nofun fun f g hfg => ?_
  rw [decide_eq_decide]
  exact (Relator.rel_eq hlinks hfg.node.label hn.label).symm

namespace Typing

theorem Coupled.forM {α β : Type} {Q : Session → Session → Prop} {extra : β → Prop}
    {r : α → β → Prop} {as : List α} {bs : List β} {f : α → SessionM PUnit} {g : β → SessionM PUnit}
    (h : Interspersed extra r as bs) (he : ∀ b, extra b → g b = Pure.pure ⟨⟩)
    (hr : ∀ a ∈ as, ∀ b, r a b → Coupled Q (fun _ => True) (f a) (g b)) :
    Coupled Q (fun _ => True) (as.forM f) (bs.forM g) := by
  induction h with
  | nil => exact .pure trivial
  | @keep a b as bs hab _ ih =>
    show Coupled Q _ (f a >>= fun _ => as.forM f) (g b >>= fun _ => bs.forM g)
    refine (hr a List.mem_cons_self b hab).bind fun _ _ => ?_
    exact ih fun c hc => hr c (List.mem_cons_of_mem _ hc)
  | @insert b as bs hb _ ih =>
    show Coupled Q _ (as.forM f) (g b >>= fun _ => bs.forM g)
    rw [he b hb]
    exact ih hr

/-- The signature is written in the session after the function was asked for, unless its result is
final. -/
theorem outcome_refineFunction (scope : Scope) (f : DeclaredFunction) (s : Session) :
    outcome (refineFunction scope f) s =
      outcome (writeSignature f)
        (if (finalReturn? s.toKnowledge f).isSome then s
          else (outcome (functionReturn scope (infer scope) f) s).2) := by
  rw [finalReturn?, Option.isSome_filter]
  by_cases h : (s.returns.get? f.name).any (Confidence.resolvedReturn ≤ ·.confidence) = true
  · simp [refineFunction, h]
  · simp [refineFunction, h]
    rfl

/-- A relation between the sessions over two programs that is kept where values are passed on: they
are typed alike, and the names of the region are offered what meets the standard. -/
structure Passing (left right : Scope) (region : Region left.graph) (links : Nat → Nat → Prop)
    (std : Standard) (Q : Session → Session → Prop) : Prop where
  function? {name : String} {f : DeclaredFunction} : left.graph.function? name = some f →
    ∃ g, right.graph.function? name = some g ∧ f.Commented links g
  function?_none {name : String} : left.graph.function? name = none → region.offered name →
    right.graph.function? name = none
  infer {n n' : Node} : region.typed n → n.Commented links n' →
    Coupled Q std.Meets (infer left n) (infer right n')
  offered {name : String} {e : Estimate} : region.offered name → std.Meets e →
    Coupled Q (fun _ => True) (assign name e false) (assign name e false)

namespace Passing

variable {left right : Scope} {region : Region left.graph} {links : Nat → Nat → Prop}
variable {std : Standard} {Q : Session → Session → Prop}
variable (p : Passing left right region links std Q)
variable {n n' : Node} {offered : Option Estimate}

/-! ## Taking values apart -/

include p in
theorem orDefault (hn : region.bound n)
    (hk : n.kind = .assignmentPattern ∨ n.kind = .objectAssignmentPattern)
    (h : n.Commented links n') (ho : std.MeetsSome offered) :
    Coupled Q std.MeetsSome (orDefault left offered (n.child? .right))
      (orDefault right offered (n'.child? .right)) := by
  unfold Typing.orDefault
  rcases rel_cases (h.child? .right) with ⟨hl, hr⟩ | ⟨c, c', hl, hr, hc⟩
  · rw [hl, hr]
    cases offered <;> exact .pure ho
  · rw [hl, hr]
    cases offered with
    | none =>
      exact (p.infer (region.typed_default hn hk hl) hc).map fun e he =>
        Standard.meetsSome_some he
    | some e => exact .pure ho

section

variable {nodes nodes' : List Node}
variable (hnodes : Interspersed Node.IsRemark (Node.Commented links) nodes nodes')

include hnodes

theorem bindIn (field : Field)
    (h : ∀ c c', nodes.find? (·.field = some field) = some c → c.Commented links c' →
      Coupled Q (fun _ => True) (bindTarget left c offered) (bindTarget right c' offered)) :
    Coupled Q (fun _ => True) (bindIn left field offered nodes)
      (bindIn right field offered nodes') := by
  induction hnodes with
  | nil => exact .pure trivial
  | @keep c c' nodes nodes' hc _ ih =>
    unfold Typing.bindIn
    rw [hc.field]
    refine .ite (fun hf => h c c' (by simp [hf]) hc) fun hf => ih fun d d' hd => h d d' ?_
    simpa [hf] using hd
  | @insert c nodes nodes' hc _ ih =>
    have hskip : Typing.bindIn right field offered (c :: nodes') =
        Typing.bindIn right field offered nodes' := by simp [Typing.bindIn, hc.field]
    rw [hskip]
    exact ih h

theorem bindFirst
    (h : ∀ c c', nodes.find? Node.isOperand = some c → c.Commented links c' →
      Coupled Q (fun _ => True) (bindTarget left c offered) (bindTarget right c' offered)) :
    Coupled Q (fun _ => True) (bindFirst left offered nodes)
      (bindFirst right offered nodes') := by
  induction hnodes with
  | nil => exact .pure trivial
  | @keep c c' nodes nodes' hc _ ih =>
    unfold Typing.bindFirst
    rw [hc.isOperand]
    refine .ite (fun ho => h c c' (by simp [ho]) hc) fun ho => ih fun d d' hd => h d d' ?_
    simpa [ho] using hd
  | @insert c nodes nodes' hc _ ih =>
    have hskip : Typing.bindFirst right offered (c :: nodes') =
        Typing.bindFirst right offered nodes' := by simp [Typing.bindFirst, hc.isOperand]
    rw [hskip]
    exact ih h

end

/-- Binding a node in each of the three ways that a pattern binds the nodes inside it. -/
structure Binds (left right : Scope) (region : Region left.graph) (links : Nat → Nat → Prop)
    (std : Standard) (Q : Session → Session → Prop) (n : Node) : Prop where
  target {n' : Node} {offered : Option Estimate} : n.Commented links n' → std.MeetsSome offered →
    region.bound n →
    Coupled Q (fun _ => True) (bindTarget left n offered) (bindTarget right n' offered)
  value {n' : Node} {offered : Option Estimate} : n.Commented links n' → std.MeetsSome offered →
    (∀ c, n.child? .value = some c → region.bound c) →
    Coupled Q (fun _ => True) (bindValue left offered n) (bindValue right offered n')
  rest {n' : Node} {offered : Option Estimate} : n.Commented links n' → std.MeetsSome offered →
    (∀ c ∈ n.operands, region.bound c) →
    Coupled Q (fun _ => True) (bindRest left offered n) (bindRest right offered n')

section

variable {nodes nodes' : List Node} {source : Estimate}
variable (hnodes : Interspersed Node.IsRemark (Node.Commented links) nodes nodes')
variable (hbinds : ∀ c ∈ nodes, Binds left right region links std Q c)
variable (hbound : ∀ c ∈ nodes, c.isOperand = true → region.bound c)
variable (hsource : std.Meets source)

include hnodes hbinds hbound hsource

theorem bindMembers : Coupled Q (fun _ => True) (bindMembers left source nodes)
    (bindMembers right source nodes') := by
  have hmember : ∀ key, std.MeetsSome (Member.property? source key) :=
    fun key e he => Standard.meets_member hsource he
  have hobject : std.MeetsSome (some (.of .object .objectLiteral)) :=
    Standard.meetsSome_some (Standard.meets_percent (std.type_prim _) (by decide))
  induction hnodes with
  | nil => exact .pure trivial
  | @keep c c' nodes nodes' hc _ ih =>
    obtain ⟨hfirst, hbinds⟩ := List.forall_mem_cons.1 hbinds
    have hrest := ih hbinds fun d hd => hbound d (List.mem_cons_of_mem _ hd)
    unfold Typing.bindMembers
    dsimp only
    rw [hc.isOperand, hc.kind, hc.text, hc.propertyKey?_child? .key, hc.text_child? .left]
    refine .ite (fun ho => ?_) fun _ => hrest
    have hb := hbound c List.mem_cons_self ho
    split
    · rename_i hk
      split
      · refine (hfirst.value hc (hmember _) fun d hd => ?_).bind fun _ _ => hrest
        exact region.bound_value hb hk hd
      · exact hrest
    · split
      · exact (hfirst.target hc (hmember _) hb).bind fun _ _ => hrest
      · exact hrest
    · split
      · exact (hfirst.target hc (hmember _) hb).bind fun _ _ => hrest
      · exact hrest
    · rename_i hk
      refine (hfirst.rest hc hobject fun d hd => ?_).bind fun _ _ => hrest
      exact region.bound_operand hb (by simp [hk]) hd
    · exact hrest
  | @insert c nodes nodes' hc _ ih =>
    have hskip : Typing.bindMembers right source (c :: nodes') =
        Typing.bindMembers right source nodes' := by
      simp [Typing.bindMembers, hc.isOperand]
    rw [hskip]
    exact ih hbinds hbound

theorem bindElements : Coupled Q (fun _ => True) (bindElements left source nodes)
    (bindElements right source nodes') := by
  have helement : std.MeetsSome (elementOf source) :=
    fun e he => Standard.meets_elementOf hsource he
  have hall : std.MeetsSome (if source.type.element?.isSome then some source else none) := by
    split
    · exact Standard.meetsSome_some hsource
    · exact Standard.meetsSome_none
  induction hnodes with
  | nil => exact .pure trivial
  | @keep c c' nodes nodes' hc _ ih =>
    obtain ⟨hfirst, hbinds⟩ := List.forall_mem_cons.1 hbinds
    have hrest := ih hbinds fun d hd => hbound d (List.mem_cons_of_mem _ hd)
    unfold Typing.bindElements
    dsimp only
    rw [hc.isOperand, hc.kind]
    refine .ite (fun ho => ?_) fun _ => hrest
    have hb := hbound c List.mem_cons_self ho
    refine .ite (fun hk => ?_) fun _ => (hfirst.target hc helement hb).bind fun _ _ => hrest
    refine (hfirst.rest hc hall fun d hd => ?_).bind fun _ _ => hrest
    exact region.bound_operand hb (by simp [hk]) hd
  | @insert c nodes nodes' hc _ ih =>
    have hskip : Typing.bindElements right source (c :: nodes') =
        Typing.bindElements right source nodes' := by
      simp [Typing.bindElements, hc.isOperand]
    rw [hskip]
    exact ih hbinds hbound

end

include p in
/-- A target is bound alike in the two sessions, and with it all targets inside it. By induction on
the tree: the targets inside a node stand in its children or in the children of these. -/
theorem binds (n : Node) : Binds left right region links std Q n := by
  induction n using Node.induction with
  | step n ih =>
    refine ⟨fun h ho hn => ?_, fun h ho hb => ?_, fun h ho hb => ?_⟩
    · obtain ⟨hlabel, hchildren⟩ := h
      rename_i offered label label' kind field named text children children'
      have h : Node.Commented links ⟨label, kind, field, named, text, children⟩
        ⟨label', kind, field, named, text, children'⟩ := .mk hlabel hchildren
      have hmembers : kind = .objectPattern ∨ kind = .arrayPattern ∨ kind = .restPattern →
          ∀ c ∈ children, c.isOperand = true → region.bound c := fun hk c hc hoperand =>
        region.bound_operand hn hk (List.mem_filter.2 ⟨hc, hoperand⟩)
      unfold bindTarget
      cases kind with
      | identifier | shorthandPattern =>
        cases text with
        | none => exact .pure trivial
        | some name =>
          cases offered with
          | none => exact .pure trivial
          | some e => exact p.offered (region.offered_bound hn (by simp) rfl) (ho e rfl)
      | assignmentPattern | objectAssignmentPattern =>
        refine (p.orDefault hn (by simp) h ho).bind fun e he => ?_
        refine bindIn hchildren .left fun c c' hc hcc => ?_
        exact (ih c (List.mem_of_find?_eq_some hc)).target hcc he
          (region.bound_left hn (by simp) hc)
      | objectPattern =>
        cases offered with
        | none => exact .pure trivial
        | some source => exact bindMembers hchildren ih (hmembers (by simp)) (ho source rfl)
      | arrayPattern =>
        cases offered with
        | none => exact .pure trivial
        | some source => exact bindElements hchildren ih (hmembers (by simp)) (ho source rfl)
      | _ => exact .pure trivial
    · obtain ⟨hlabel, hchildren⟩ := h
      unfold bindValue
      refine bindIn hchildren .value fun c c' hc hcc => ?_
      exact (ih c (List.mem_of_find?_eq_some hc)).target hcc ho (hb c hc)
    · obtain ⟨hlabel, hchildren⟩ := h
      unfold bindRest
      refine bindFirst hchildren fun c c' hc hcc => ?_
      have hmem := List.mem_of_find?_eq_some hc
      exact (ih c hmem).target hcc ho (hb c (List.mem_filter.2 ⟨hmem, List.find?_some hc⟩))

include p in
theorem destructure (hn : region.bound n) (hk : n.kind.isDestructuring = true)
    (h : n.Commented links n') {source : Estimate} (hsource : std.Meets source) :
    Coupled Q (fun _ => True) (destructure left n source) (destructure right n' source) := by
  have hkinds : n.kind = .objectPattern ∨ n.kind = .arrayPattern := by
    unfold Kind.isDestructuring at hk
    split at hk <;> simp_all
  have hbinds : ∀ c ∈ n.children, Binds left right region links std Q c :=
    fun c _ => p.binds c
  have hbound : ∀ c ∈ n.children, c.isOperand = true → region.bound c := fun c hc ho =>
    region.bound_operand hn (hkinds.imp_right .inl) (List.mem_filter.2 ⟨hc, ho⟩)
  unfold Typing.destructure
  rw [h.kind]
  exact .ite (fun _ => bindMembers h.children hbinds hbound hsource) fun _ =>
    bindElements h.children hbinds hbound hsource

/-! ## Passing values on -/

section

variable {root : Node} (cover : region.Covers root)

include p in
/-- The same names are those of functions. -/
theorem declares_eq {name : String} (h : region.offered name) :
    right.graph.declares name = left.graph.declares name := by
  have hdeclares : ∀ graph : CallGraph, graph.declares name = (graph.function? name).isSome := by
    intro graph
    rw [Bool.eq_iff_iff, CallGraph.declares, CallGraph.function?, List.any_eq_true,
      List.find?_isSome]
  rw [hdeclares, hdeclares]
  cases hf : left.graph.function? name with
  | none => rw [p.function?_none hf h]
  | some f =>
    obtain ⟨g, hg, -⟩ := p.function? hf
    rw [hg]
    rfl

include p cover

theorem propagateDeclarator (hn : n ∈ root.preorder) (hk : n.kind = .variableDeclarator)
    (h : n.Commented links n') :
    Coupled Q (fun _ => True) (propagateDeclarator left n)
      (propagateDeclarator right n') := by
  unfold Typing.propagateDeclarator
  rcases rel_cases (h.child? .name) with ⟨hl, hr⟩ | ⟨target, target', ht, ht', htarget⟩
  · simp only [hl, hr]
    exact .pure trivial
  rcases rel_cases (h.child? .value) with ⟨hl, hr⟩ | ⟨value, value', hv, hv', hvalue⟩
  · simp only [ht, ht', hl, hr]
    exact .pure trivial
  have hu := hvalue.unwrapParens
  simp only [ht, ht', hv, hv', hu.kind, htarget.kind, htarget.text]
  refine .ite (fun _ => .pure trivial) fun _ => .ite (fun hd => ?_) fun hd => ?_
  · have htyped := cover.value hn hk ht hv fun hd' => absurd hd (by simp [hd'])
    refine (p.infer htyped hu).bind fun e he => ?_
    exact p.destructure (cover.pattern hn hk ht hd) hd htarget he
  · split
    · exact .pure trivial
    · rename_i name htext
      have hoffered := cover.declared hn hk ht (by simpa using hd) htext
      rw [p.declares_eq hoffered]
      refine .ite (fun _ => .pure trivial) fun hfn => ?_
      have htyped := cover.value hn hk ht hv fun _ other ho => by
        rw [htext] at ho
        cases ho
        simpa using hfn
      refine (p.infer htyped hu).bind fun e he => p.offered hoffered ?_
      split
      · exact he.faded (n := 90) (by decide)
      · exact he

theorem propagateNode (hn : n ∈ root.preorder) (h : n.Commented links n') :
    Coupled Q (fun _ => True) (propagateNode left n) (propagateNode right n') := by
  unfold Typing.propagateNode
  rw [h.kind]
  split
  · exact p.propagateDeclarator cover hn ‹_› h
  · exact (p.infer (cover.call hn ‹_›) h).discard
  · exact .pure trivial

theorem propagate {root' : Node} (h : root.Commented links root') :
    Coupled Q (fun _ => True) (propagate left root) (propagate right root') := by
  refine .forM h.preorder (fun c hc => ?_) fun n hn n' h => p.propagateNode cover hn h
  simp [Typing.propagateNode, hc.kind]

end

/-! ## Calls and signatures -/

include p in
theorem refineParams {params params' : List Param}
    (hparams : List.Forall₂ (Param.Commented links) params params')
    (hoffered : ∀ q ∈ params, ∀ x, q.name = some x → region.offered x) {args args' : List Node}
    (hargs : List.Forall₂ (Node.Commented links) args args')
    (htyped : ∀ c ∈ args, region.typed c) {known : List (Option Estimate)}
    (hknown : ∀ e ∈ known, std.MeetsSome e) :
    Coupled Q (fun _ => True) (refineParams left params (args.zip known))
      (refineParams right params' (args'.zip known)) := by
  induction hparams generalizing args args' known with
  | nil => exact .pure trivial
  | @cons q q' params params' hq _ ih =>
    cases hargs with
    | nil => exact .pure trivial
    | @cons c c' args args' hc hargs =>
      cases known with
      | nil => exact .pure trivial
      | cons e known =>
        obtain ⟨he, hknown⟩ := List.forall_mem_cons.1 hknown
        have hrest := ih (fun r hr => hoffered r (List.mem_cons_of_mem _ hr)) hargs
          (fun d hd => htyped d (List.mem_cons_of_mem _ hd)) hknown
        rw [List.zip_cons_cons, List.zip_cons_cons, Typing.refineParams, Typing.refineParams]
        rw [hq.name, hq.isRest, hc.kind]
        refine .ite (fun _ => .pure trivial) fun _ => ?_
        dsimp only
        split
        · rename_i name hname
          refine .ite (fun _ => hrest) fun _ => ?_
          have hestimate : Coupled Q std.Meets
              (e.elim (Typing.infer left c) Pure.pure)
              (e.elim (Typing.infer right c') Pure.pure) := by
            cases e with
            | none => exact p.infer (htyped c List.mem_cons_self) hc
            | some e => exact .pure (he e rfl)
          refine hestimate.bind fun e he => ?_
          exact (p.offered (hoffered q List.mem_cons_self name hname) he).bind fun _ _ => hrest
        · exact hrest

include p in
theorem refineSite {site site' : CallSite} (h : site.Commented links site')
    (htyped : ∀ c ∈ site.node.callArguments, region.typed c)
    (hknown : ∀ e ∈ site.arguments, std.MeetsSome e)
    (hnone : left.graph.function? site.callee = none → right.graph.function? site.callee = none) :
    Coupled Q (fun _ => True) (refineSite left site) (refineSite right site') := by
  unfold Typing.refineSite
  rw [h.callee, h.arguments]
  cases hf : left.graph.function? site.callee with
  | none =>
    rw [hnone hf]
    exact .pure trivial
  | some f =>
    obtain ⟨g, hg, hfg⟩ := p.function? hf
    have hmem : f ∈ left.graph.functions := List.mem_of_find?_eq_some hf
    rw [hg]
    refine p.refineParams hfg.params (fun q hq name hname => ?_) h.node.callArguments htyped hknown
    rw [region.params_function hmem] at hq
    exact region.offered_param (region.evaluated_function hmem) hq hname

end Passing

/-! ## The round -/

namespace Pairing

variable {left right : Scope} {region : Region left.graph} {links : Nat → Nat → Prop}
variable {std : Standard} {R : Nat → List (Option String) → Session → Session → Prop}
variable (p : Pairing left right region links std R)

include p in
/-- A result that is final on one side is the same on the other. -/
theorem returns_of_final {f : DeclaredFunction} (hf : f ∈ left.graph.functions) {s t : Session}
    {nesting : Nat} {stack : List (Option String)} (hst : R nesting stack s t) {e : Estimate}
    (he : finalReturn? s.toKnowledge f = some e) :
    s.returns.get? f.name = t.returns.get? f.name := by
  have ht := (p.final hst hf).1.symm.trans he
  rw [(Option.filter_eq_some_iff.1 he).1, (Option.filter_eq_some_iff.1 ht).1]

variable [std.Signs]

include p

/-- Values are passed on alike outside all expressions and from the empty stack. -/
theorem passing : Passing left right region links std (R 0 []) where
  function? := p.function?
  function?_none h ho := p.function?_none h (.inr ho)
  infer := p.typers.here
  offered := p.offered

/-- What the two sessions hold of a function's result agrees once it was asked for from the empty
stack: it is final, it was answered, or both have just noted it. -/
theorem returns_functionReturn {f g : DeclaredFunction} (hf : f ∈ left.graph.functions)
    (h : f.Commented links g) {s t : Session} (hst : R 0 [] s t) :
    (outcome (Typing.functionReturn left (Typing.infer left) f) s).2.returns.get? f.name =
      (outcome (Typing.functionReturn right (Typing.infer right) g) t).2.returns.get? f.name := by
  obtain ⟨hs, ht⟩ := p.active hst
  have hfinal' : finalReturn? t.toKnowledge g = finalReturn? s.toKnowledge f := by
    rw [finalReturn?, h.name]
    exact (p.final hst hf).1.symm
  rw [outcome_functionReturn, outcome_functionReturn, hs, ht, h.name, ← (p.answered hst hf).1,
    hfinal', if_neg List.not_mem_nil, if_neg List.not_mem_nil]
  cases hanswered : s.answered.get? f.name with
  | some e => exact p.returned hst hf (.inl (by rw [hanswered]; rfl))
  | none =>
    cases hfinal : finalReturn? s.toKnowledge f with
    | some e => exact p.returns_of_final hf hst hfinal
    | none =>
      obtain ⟨hrefused, -, hst'⟩ := p.refused p.typers s t hst
      obtain ⟨readings, hclock⟩ := refused_frame left s
      obtain ⟨readings', hclock'⟩ := refused_frame right t
      dsimp only
      rw [← hrefused]
      split
      · have hreturned := p.returned hst hf (.inr ‹_›)
        rw [hclock, hclock']
        exact hreturned
      · have hopen : Unanswered (outcome (Typing.refused left) s).2 f.name :=
          Unanswered.congr ⟨hanswered, hfinal⟩ (by rw [hclock]) (by rw [hclock])
        have hresult := (p.evaluate p.typers hf h hst' List.not_mem_nil hopen).1
        have hright := returns_evaluate (Typing.infer right) g (outcome (Typing.refused right) t).2
        rw [h.name] at hright
        rw [returns_evaluate, hright, hresult]

theorem refineFunction {f g : DeclaredFunction} (hf : f ∈ left.graph.functions)
    (h : f.Commented links g) :
    Coupled (R 0 []) (fun _ => True) (refineFunction left f) (refineFunction right g) := by
  intro s t hst
  have hfinal' : finalReturn? t.toKnowledge g = finalReturn? s.toKnowledge f := by
    rw [finalReturn?, h.name]
    exact (p.final hst hf).1.symm
  rw [outcome_refineFunction, outcome_refineFunction, hfinal', writeSignature_commented h]
  refine ⟨rfl, trivial, ?_⟩
  split
  · rename_i hsome
    obtain ⟨e, he⟩ := Option.isSome_iff_exists.1 hsome
    exact p.sign hst hf (p.returns_of_final hf hst he)
  · exact p.sign (p.functionReturn p.typers hf h s t hst).2.2 hf (p.returns_functionReturn hf h hst)

/-- All that a round does in its session, where the second program is the first with comments put
in. -/
theorem session {root root' : Node} (cover : region.Covers root) (h : root.Commented links root')
    (hsites : List.Forall₂ (CallSite.Commented links) left.graph.sites right.graph.sites)
    (hknown : ∀ site ∈ left.graph.sites, ∀ e ∈ site.arguments, std.MeetsSome e)
    (hfunctions : List.Forall₂ (DeclaredFunction.Commented links) left.graph.functions
      right.graph.functions) :
    Coupled (R 0 []) (fun _ => True) (Typing.propagate left root *> Typing.refineCalls left)
      (Typing.propagate right root' *> Typing.refineCalls right) := by
  have hnone : ∀ name, left.graph.function? name = none → right.graph.function? name = none :=
    fun name => rel_none (CallGraph.function?_commented hfunctions name)
  refine (p.passing.propagate cover h).bind fun _ _ =>
    Coupled.bind (P := fun _ => True) ?_ fun _ _ => ?_
  · refine .forM (.of_forall₂ hsites) nofun fun site hsite site' hss => ?_
    exact p.passing.refineSite hss (fun c hc => cover.argument hsite hc) (hknown site hsite)
      (hnone _)
  · exact .forM (.of_forall₂ hfunctions) nofun fun f hf g hfg => p.refineFunction hf hfg

end Pairing

/-! ## One program -/

/-- All that a round does in its session, where the two programs are one. -/
theorem Pairing.session_self {scope : Scope} {region : Region scope.graph} {std : Standard}
    [std.Signs] {R : Nat → List (Option String) → Session → Session → Prop}
    (p : Pairing scope scope region Eq std R) {root : Node} (cover : region.Covers root)
    (hknown : ∀ site ∈ scope.graph.sites, ∀ e ∈ site.arguments, std.MeetsSome e) :
    Coupled (R 0 []) (fun _ => True) (Typing.propagate scope root *> Typing.refineCalls scope)
      (Typing.propagate scope root *> Typing.refineCalls scope) := by
  have hsites : List.Forall₂ (CallSite.Commented Eq) scope.graph.sites scope.graph.sites :=
    List.forall₂_same.2 fun site _ => .refl (fun _ => rfl) site
  exact p.session cover (.refl (fun _ => rfl) root) hsites hknown scope.graph.functions_commented

end Typing

end ScriptTypes
