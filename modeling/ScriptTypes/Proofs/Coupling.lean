import ScriptTypes.Proofs.Commented.Trees
import ScriptTypes.Proofs.Program
import ScriptTypes.Proofs.Standards

/-!
# Typing rules side by side

Two typers that go by the same rules, one on a tree and one on the tree with comments put in. If
they answer alike for subexpressions and for the forms that each of them treats in its own way, and
the answers meet a standard, so it is for every expression.

* `Coupling`: computations of two monads that give the same answer.
* `Coupling.Treats`: two typers that treat their own forms alike.
* `Coupling.typeOf`: they type every expression alike.
* `structural_commented`, `meets_structural`: what this says of structural typing.
-/

namespace ScriptTypes

/-- An estimate that is there meets the standard. -/
def Standard.MeetsSome (std : Standard) (e : Option Estimate) : Prop :=
  ∀ x, e = some x → std.Meets x

theorem Standard.meetsSome_none {std : Standard} : std.MeetsSome none := nofun

theorem Standard.meetsSome_some {std : Standard} {e : Estimate} (h : std.Meets e) :
    std.MeetsSome (some e) := by
  rintro _ ⟨⟩
  exact h

theorem Entries.forall_mem_set {α : Type} {P : α → Prop} {entries : Entries α} {name : String}
    {value : α} (h : ∀ entry ∈ entries, P entry.2) (hv : P value) :
    ∀ entry ∈ Entries.set entries name value, P entry.2 := by
  induction entries with
  | nil => simpa [set] using hv
  | cons entry rest ih =>
    obtain ⟨hfirst, hrest⟩ := List.forall_mem_cons.1 h
    unfold set
    split
    · exact List.forall_mem_cons.2 ⟨hv, hrest⟩
    · exact List.forall_mem_cons.2 ⟨hfirst, ih hrest⟩

namespace Typing

/-- A relation between the computations of two monads that give the same answer, of which something
holds. -/
structure Coupling (m n : Type → Type) [Monad m] [Monad n] where
  holds {α : Type} : (α → Prop) → m α → n α → Prop
  pure {α : Type} {P : α → Prop} {a : α} : P a → holds P (Pure.pure a) (Pure.pure a)
  bind {α β : Type} {P : α → Prop} {P' : β → Prop} {x : m α} {y : n α} {f : α → m β} {g : α → n β} :
    holds P x y → (∀ a, P a → holds P' (f a) (g a)) → holds P' (x >>= f) (y >>= g)

/-- Computations without effects that give the same answer. -/
def Coupling.equal : Coupling Id Id where
  holds P x y := x.run = y.run ∧ P x.run
  pure ha := ⟨rfl, ha⟩
  bind := by
    rintro α β P P' x y f g ⟨hxy, hx⟩ hf
    have hfg := hf x.run hx
    show (f x.run).run = (g y.run).run ∧ P' (f x.run).run
    rw [← hxy]
    exact hfg

namespace Coupling

variable {m n : Type → Type} [Monad m] [Monad n] (C : Coupling m n)
variable {graph : CallGraph} {region : Region graph} {links : Nat → Nat → Prop} {std : Standard}

section

variable {infer : Node → m Estimate} {infer' : Node → n Estimate}
variable (hi : ∀ {c c' : Node}, region.typed c → c.Commented links c' →
  C.holds std.Meets (infer c) (infer' c'))
variable {node node' : Node}

include hi

/-! ## The standard library -/

theorem staticCall? {callee callee' : Node} (hn : region.typed node)
    (h : node.Commented links node') (hc : callee.Commented links callee') :
    C.holds std.MeetsSome (staticCall? infer node callee) (staticCall? infer' node' callee') := by
  have hmethods : ∀ entry ∈ Builtin.staticMethods, std.type entry.2 := by
    simp [Builtin.staticMethods, std.type_prim, std.type_any, std.type_array, std.type_generic]
  unfold Typing.staticCall?
  simp only [hc.namespace?, hc.memberName?]
  split
  · split
    · have hargs := h.callArguments
      have htyped : ∀ c ∈ node.callArguments, region.typed c := fun c => region.typed_argument hn
      generalize node.callArguments = args at hargs htyped
      generalize node'.callArguments = args' at hargs
      cases hargs with
      | nil => exact C.pure (Standard.meetsSome_some Standard.meets_unknownPromise)
      | cons hvalue _ =>
        refine C.bind (hi (htyped _ List.mem_cons_self) hvalue) fun e he => C.pure ?_
        exact Standard.meetsSome_some (Standard.meets_promiseOf he)
    · split
      · exact C.pure (Standard.meetsSome_some (Standard.meets_prim _ rfl _))
      · refine C.pure fun e he => ?_
        obtain ⟨type, hlookup, rfl⟩ := Option.map_eq_some_iff.1 he
        exact Standard.meets_percent (Standard.type_of_lookup hmethods hlookup) (by decide)
  · exact C.pure Standard.meetsSome_none

theorem knownCall (hn : region.typed node) (h : node.Commented links node') :
    C.holds std.Meets (knownCall infer node) (knownCall infer' node') := by
  have hcalls : ∀ entry ∈ Builtin.globalCalls, std.type entry.2 := by
    simp [Builtin.globalCalls, Builtin.mapType, Builtin.setType, std.type_prim, std.type_any,
      std.type_array, std.type_generic]
  have hunknown : std.Meets .unknownCall := Standard.meets_unknownCall
  unfold Typing.knownCall
  rcases rel_cases (h.child? .callee) with ⟨hl, hr⟩ | ⟨callee, callee', hl, hr, hc⟩
  · simp only [hl, hr]
    exact C.pure hunknown
  · simp only [hl, hr, hc.kind, hc.text]
    split
    · split
      · rename_i type hlookup
        obtain ⟨name, -, hlookup⟩ := Option.bind_eq_some_iff.1 hlookup
        exact C.pure (Standard.meets_percent (Standard.type_of_lookup hcalls hlookup) (by decide))
      · exact C.pure hunknown
    · refine C.bind (C.staticCall? hi hn h hc) fun e he => C.pure ?_
      exact Standard.meets_getD he hunknown
    · exact C.pure hunknown

/-! ## Constructors -/

theorem mostConfident {nodes nodes' : List Node}
    (hnodes : List.Forall₂ (Node.Commented links) nodes nodes')
    (htyped : ∀ c ∈ nodes, region.typed c) {best : Estimate} (hbest : std.Meets best) :
    C.holds std.Meets (mostConfident infer best nodes) (mostConfident infer' best nodes') := by
  induction hnodes generalizing best with
  | nil => exact C.pure hbest
  | cons hc _ ih =>
    refine C.bind (hi (htyped _ List.mem_cons_self) hc) fun e he => ?_
    refine ih (fun c hc => htyped c (List.mem_cons_of_mem _ hc)) ?_
    split
    · exact he
    · exact hbest

theorem promiseConstructor (hn : region.typed node) (h : node.Commented links node') :
    C.holds std.Meets (promiseConstructor infer node) (promiseConstructor infer' node') := by
  unfold Typing.promiseConstructor
  rcases rel_cases (rel_head? h.callArguments) with ⟨hl, hr⟩ | ⟨executor, executor', hl, hr, hc⟩
  · simp only [hl, hr]
    exact C.pure Standard.meets_unknownPromise
  · have htyped := region.typed_argument hn (List.mem_of_mem_head? hl)
    have hname : executor'.params.head?.bind (·.name) = executor.params.head?.bind (·.name) :=
      bind_eq_of_rel (rel_head? hc.params) fun _ _ hp => hp.name
    simp only [hl, hr, hc.kind, hname]
    split
    · rename_i hliteral
      have hev := region.evaluated_literal htyped hliteral
      split
      · exact C.pure Standard.meets_unknownPromise
      · rename_i resolve _
        have hvalues := C.mostConfident hi (hc.resolvedValues resolve)
          (fun _ hv => region.typed_resolved hev hv)
          (Standard.meets_percent (n := 50) std.type_any (by decide))
        exact C.bind hvalues fun e he => C.pure (Standard.meets_promiseOf he)
    · exact C.pure Standard.meets_unknownPromise

theorem newObject (hn : region.typed node) (h : node.Commented links node') :
    C.holds std.Meets (newObject infer node) (newObject infer' node') := by
  have hbuilders : ∀ entry ∈ Builtin.constructors, std.type entry.2 := by
    simp [Builtin.constructors, Builtin.mapType, Builtin.setType, std.type_prim, std.type_any,
      std.type_array, std.type_generic]
  unfold Typing.newObject
  rw [bind_eq_of_rel (h.child? .builder) fun _ _ hc => hc.identifierName?]
  split
  · exact C.pure (Standard.meets_percent (std.type_prim _) (by decide))
  · split
    · exact C.promiseConstructor hi hn h
    · split
      · rename_i hlookup
        exact C.pure
          (Standard.meets_percent (Standard.type_of_lookup hbuilders hlookup) (by decide))
      · exact C.pure (Standard.meets_percent (std.type_generic.2 (by simp)) (by decide))

/-! ## Arrays -/

theorem spreadElement (hn : region.typed node) (hk : node.kind = .spreadElement)
    (h : node.Commented links node') :
    C.holds std.Meets (spreadElement infer node) (spreadElement infer' node') := by
  unfold Typing.spreadElement
  rcases rel_cases h.operand? with ⟨hl, hr⟩ | ⟨inner, inner', hl, hr, hc⟩
  · simp only [hl, hr]
    exact C.pure Standard.meets_unknown
  · simp only [hl, hr]
    have hmem : inner ∈ node.operands :=
      List.mem_filter.2 ⟨List.mem_of_find?_eq_some hl, List.find?_some hl⟩
    refine C.bind (hi (region.typed_operand hn (by rw [hk]; rfl) hmem) hc) fun e he => ?_
    split
    · exact C.pure (he.element ‹_›)
    · exact C.pure (Standard.meets_prim _ rfl _)
    · exact C.pure Standard.meets_unknown

theorem elementTypes {nodes nodes' : List Node}
    (hnodes : List.Forall₂ (Node.Commented links) nodes nodes')
    (htyped : ∀ c ∈ nodes, region.typed c) :
    C.holds (fun types => ∀ e ∈ types, std.Meets e) (elementTypes infer nodes)
      (elementTypes infer' nodes') := by
  induction hnodes with
  | nil => exact C.pure nofun
  | @cons c c' nodes nodes' hc _ ih =>
    have hn := htyped c List.mem_cons_self
    have hrest : ∀ e, std.Meets e → C.holds (fun types => ∀ e ∈ types, std.Meets e)
        (do let rest ← Typing.elementTypes infer nodes; Pure.pure (e :: rest))
        (do let rest ← Typing.elementTypes infer' nodes'; Pure.pure (e :: rest)) := by
      intro e he
      refine C.bind (ih fun d hd => htyped d (List.mem_cons_of_mem _ hd)) fun es hes => C.pure ?_
      exact List.forall_mem_cons.2 ⟨he, hes⟩
    unfold Typing.elementTypes
    dsimp only
    rw [hc.kind]
    split
    · exact C.bind (C.spreadElement hi hn ‹_› hc) hrest
    · exact C.bind (hi hn hc) hrest

/-! ## Operators and the rest -/

theorem binaryType (hn : region.typed node) (hk : node.kind = .binaryExpression)
    (h : node.Commented links node') :
    C.holds std.Meets (binaryType infer node) (binaryType infer' node') := by
  have hk' : node.kind.namesFunctions = false := by rw [hk]; rfl
  unfold Typing.binaryType
  rw [h.text_child? .operator]
  cases (node.child? .operator).bind (·.text) with
  | none => exact C.pure Standard.meets_unknown
  | some operator =>
    rcases rel_cases (h.child? .left) with ⟨hl, hl'⟩ | ⟨left, left', hl, hl', hleft⟩
    · simp only [hl, hl']
      exact C.pure Standard.meets_unknown
    rcases rel_cases (h.child? .right) with ⟨hr, hr'⟩ | ⟨right, right', hr, hr', hright⟩
    · simp only [hl, hl', hr, hr']
      exact C.pure Standard.meets_unknown
    simp only [hl, hl', hr, hr']
    refine C.bind (hi (region.typed_child hn hk' hl) hleft) fun e he => ?_
    refine C.bind (hi (region.typed_child hn hk' hr) hright) fun e' he' => ?_
    exact C.pure (Standard.meets_binary _ he he')

theorem ternaryType (hn : region.typed node) (hk : node.kind = .ternaryExpression)
    (h : node.Commented links node') :
    C.holds std.Meets (ternaryType infer node) (ternaryType infer' node') := by
  have hk' : node.kind.namesFunctions = false := by rw [hk]; rfl
  unfold Typing.ternaryType
  rcases rel_cases (h.child? .consequence) with ⟨hl, hl'⟩ | ⟨left, left', hl, hl', hleft⟩
  · simp only [hl, hl']
    exact C.pure Standard.meets_unknown
  rcases rel_cases (h.child? .alternative) with ⟨hr, hr'⟩ | ⟨right, right', hr, hr', hright⟩
  · simp only [hl, hl', hr, hr']
    exact C.pure Standard.meets_unknown
  simp only [hl, hl', hr, hr']
  refine C.bind (hi (region.typed_child hn hk' hl) hleft) fun e he => ?_
  refine C.bind (hi (region.typed_child hn hk' hr) hright) fun e' he' => ?_
  exact C.pure (Standard.meets_unionOf he he')

theorem inferOr {child child' : Option Node} (h : Option.Rel (Node.Commented links) child child')
    (htyped : ∀ c, child = some c → region.typed c) :
    C.holds std.Meets (inferOr infer child) (inferOr infer' child') := by
  rcases rel_cases h with ⟨rfl, rfl⟩ | ⟨c, c', rfl, rfl, hc⟩
  · exact C.pure Standard.meets_unknown
  · exact hi (htyped c rfl) hc

end

/-! ## All rules -/

/-- Two typers that answer alike for subexpressions and treat names, function literals, calls and
accesses to members alike. -/
structure Treats (region : Region graph) (links : Nat → Nat → Prop) (std : Standard)
    (forms : Forms m) (forms' : Forms n) : Prop where
  infer {c c' : Node} : region.typed c → c.Commented links c' →
    C.holds std.Meets (forms.infer c) (forms'.infer c')
  name {c : Node} : region.typed c →
    c.kind = .identifier ∧ c.text ≠ some "undefined" ∨ c.kind = .shorthandProperty →
    C.holds std.Meets (forms.name c.text) (forms'.name c.text)
  functionLiteral {c c' : Node} : region.typed c → c.kind.isFunctionLiteral = true →
    c.Commented links c' → C.holds std.Meets (forms.functionLiteral c) (forms'.functionLiteral c')
  call {c c' : Node} : region.typed c → c.kind = .callExpression → c.Commented links c' →
    C.holds std.Meets (forms.call c) (forms'.call c')
  member {c c' : Node} : region.typed c → c.kind = .memberExpression → c.Commented links c' →
    C.holds std.Meets (forms.member c) (forms'.member c')
  subscript {c c' : Node} : region.typed c → c.kind = .subscriptExpression →
    c.Commented links c' → C.holds std.Meets (forms.subscript c) (forms'.subscript c')

variable {C} {forms : Forms m} {forms' : Forms n} {node node' : Node}

theorem Treats.objectShape (t : C.Treats region links std forms forms') {nodes nodes' : List Node}
    (hnodes : List.Forall₂ (Node.Commented links) nodes nodes')
    (htyped : ∀ c ∈ nodes, region.typed c) {shape : List (String × Estimate)}
    (hshape : ∀ entry ∈ shape, std.Meets entry.2) :
    C.holds (fun shape => ∀ entry ∈ shape, std.Meets entry.2) (objectShape forms shape nodes)
      (objectShape forms' shape nodes') := by
  induction hnodes generalizing shape with
  | nil => exact C.pure hshape
  | @cons c c' nodes nodes' hc _ ih =>
    have hrest {shape} := @ih (fun d hd => htyped d (List.mem_cons_of_mem _ hd)) shape
    have hset : ∀ key e, std.Meets e → ∀ entry ∈ Entries.set shape key e, std.Meets entry.2 :=
      fun key e he => Entries.forall_mem_set hshape he
    have hn := htyped c List.mem_cons_self
    unfold Typing.objectShape
    rw [hc.kind, hc.text, hc.propertyKey?_child? .key, hc.propertyKey?_child? .name]
    split
    · rename_i hk
      cases (c.child? .key).bind Node.propertyKey? with
      | none => exact hrest hshape
      | some key =>
        rcases rel_cases (hc.child? .value) with ⟨hl, hr⟩ | ⟨value, value', hl, hr, hv⟩
        · simp only [hl, hr]
          exact hrest hshape
        · simp only [hl, hr]
          refine C.bind (t.infer (region.typed_child hn (by rw [hk]; rfl) hl) hv) fun e he => ?_
          exact hrest (hset key e he)
    · rename_i hk
      split
      · rename_i key htext
        split
        · exact hrest hshape
        · have hname := t.name hn (.inr hk)
          rw [htext] at hname
          exact C.bind hname fun e he => hrest (hset key e he)
      · exact hrest hshape
    · split
      · exact hrest (hset _ _ (Standard.meets_percent (std.type_generic.2 (by simp)) (by decide)))
      · exact hrest hshape
    · exact hrest hshape

/-- The two typers type an expression alike. -/
theorem Treats.typeOf (t : C.Treats region links std forms forms') (hn : region.typed node)
    (h : node.Commented links node') :
    C.holds std.Meets (forms.typeOf node) (forms'.typeOf node') := by
  have hi {c c'} := @t.infer c c'
  have hoperand : node.kind.namesFunctions = false → ∀ c ∈ node.operands, region.typed c :=
    fun hk c hc => region.typed_operand hn hk hc
  have hbasic : ∀ p c, (Ty.prim p).isBasic = true →
      C.holds std.Meets (Pure.pure (.of (.prim p) c)) (Pure.pure (.of (.prim p) c)) :=
    fun p c hp => C.pure (Standard.meets_prim p hp c)
  unfold Forms.typeOf
  rw [h.kind, h.text]
  split
  -- The kinds in the order of the rules; literals, of eight kinds, come first.
  iterate 7 · exact hbasic _ _ rfl
  · exact C.pure (Standard.meets_of (std.type_generic.2 (by simp)) fun _ => std.firm_basic rfl)
  · rename_i hk
    split
    · exact hbasic _ _ rfl
    · exact t.name hn (.inl ⟨hk, ‹_›⟩)
  · rename_i hk
    refine C.bind (C.elementTypes hi h.operands (hoperand (by rw [hk]; rfl))) fun es hes => ?_
    exact C.pure (Standard.meets_arrayOf hes)
  · rename_i hk
    refine C.bind (t.objectShape h.operands (hoperand (by rw [hk]; rfl)) nofun) fun shape hs => ?_
    refine C.pure (Standard.meets_iff.2 ⟨std.type_prim _, ?_, ?_⟩)
    · exact Standard.firm_of_modest (Confidence.percent_le_signatureMax (n := 80) (by decide))
    · rintro _ ⟨⟩
      exact hs
  iterate 4
    · rename_i hk
      exact t.functionLiteral hn (by rw [hk]; rfl) h
  · exact t.call hn ‹_› h
  · exact C.newObject hi hn h
  · exact t.member hn ‹_› h
  · exact t.subscript hn ‹_› h
  · unfold unaryType
    rw [h.text_child? .operator]
    refine C.pure (Standard.meets_getD (fun e he => ?_) Standard.meets_unknown)
    obtain ⟨operator, -, hunary⟩ := Option.bind_eq_some_iff.1 he
    exact Standard.meets_unary? hunary
  · exact hbasic _ _ rfl
  · exact C.binaryType hi hn ‹_› h
  · exact C.ternaryType hi hn ‹_› h
  · rename_i hk
    rcases rel_cases h.operand? with ⟨hl, hr⟩ | ⟨inner, inner', hl, hr, hc⟩
    · simp only [hl, hr]
      exact C.pure Standard.meets_unknown
    · simp only [hl, hr]
      have hmem : inner ∈ node.operands :=
        List.mem_filter.2 ⟨List.mem_of_find?_eq_some hl, List.find?_some hl⟩
      refine C.bind (hi (hoperand (by rw [hk]; rfl) inner hmem) hc) fun e he => ?_
      exact C.pure (Standard.meets_awaited he)
  · rename_i hk
    refine C.inferOr hi (rel_getLast? h.operands) fun c hc => ?_
    exact hoperand (by rw [hk]; rfl) c (List.mem_of_getLast? hc)
  iterate 2
    · rename_i hk
      refine C.inferOr hi (h.child? .right) fun c hc => ?_
      exact region.typed_child hn (by rw [hk]; rfl) hc
  · exact C.pure Standard.meets_unknown

end Coupling

/-! ## Structural typing -/

section

variable {links : Nat → Nat → Prop} {std : Standard} {node node' : Node}

theorem staticProperty?_commented (h : node.Commented links node') :
    staticProperty? node' = staticProperty? node := by
  rw [staticProperty?, staticProperty?, h.namespace?, h.memberName?]

theorem meets_staticProperty? {e : Estimate} (he : staticProperty? node = some e) :
    std.Meets e := by
  have hproperties : ∀ entry ∈ Builtin.staticProperties, std.type entry.2 := by
    simp [Builtin.staticProperties, std.type_prim]
  unfold staticProperty? at he
  split at he
  · obtain ⟨type, hlookup, rfl⟩ := Option.map_eq_some_iff.1 he
    exact Standard.meets_percent (Standard.type_of_lookup hproperties hlookup) (by decide)
  · cases he

/-- The structural treatment of names, functions, calls and members is alike if that of
subexpressions is. -/
theorem Coupling.treats_structuralForms {m n : Type → Type} [Monad m] [Monad n] (C : Coupling m n)
    {infer : Node → m Estimate} {infer' : Node → n Estimate} (program : Place)
    (hi : ∀ {c c' : Node}, c.Commented links c' → C.holds std.Meets (infer c) (infer' c')) :
    C.Treats (Region.whole program) links std (structuralForms infer) (structuralForms infer') where
  infer _ hc := hi hc
  name _ _ := C.pure Standard.meets_unknown
  functionLiteral _ _ _ :=
    C.pure (Standard.meets_percent (std.type_generic.2 (by simp)) (by decide))
  call hn _ hc := C.knownCall (fun _ hd => hi hd) hn hc
  member {c c'} _ _ hc := by
    show C.holds std.Meets (Pure.pure ((staticProperty? c).getD .unknown))
      (Pure.pure ((staticProperty? c').getD .unknown))
    rw [staticProperty?_commented hc]
    exact C.pure (Standard.meets_getD (fun _ => meets_staticProperty?) Standard.meets_unknown)
  subscript _ _ _ := C.pure Standard.meets_unknown

/-- Structural typing does not see the comments, and meets every standard. By induction on the room
for nested expressions. -/
theorem structuralWithin_commented (std : Standard) (room : Nat) (h : node.Commented links node') :
    Coupling.equal.holds std.Meets (structuralWithin room node) (structuralWithin room node') := by
  induction room generalizing node node' with
  | zero => exact Coupling.equal.pure Standard.meets_unknown
  | succ room ih =>
    have ht := Coupling.equal.treats_structuralForms ⟨node, []⟩ ih
    exact ht.typeOf trivial h.unwrapParens

theorem structural_commented (h : node.Commented links node') :
    structural node' = structural node :=
  (structuralWithin_commented .anything maxNesting h).1.symm

theorem meets_structural (node : Node) : std.Meets (structural node) := by
  have hself : node.Commented Eq node := .refl (fun _ => rfl) node
  exact (structuralWithin_commented std maxNesting hself).2

end

end Typing

end ScriptTypes
