import ScriptTypes.Proofs.Coupling

/-!
# Closed expressions

An expression is closed if its type does not depend on the program around it: it holds no functions,
no calls, no accesses to members, and no names besides those of constructors. Such an expression is
typed structurally, whatever is known of the program and however the clock goes, and typing it does
nothing but read the clock.

* `Place.Closed`: closed expressions.
* `Coupling.still`: computations in a session that do nothing but read the clock.
* `Region.closed`: the expressions that typing a closed expression gets to.
* `closed_typed_structurally`: what typing a closed expression in a session gives.
-/

namespace ScriptTypes

/-- Expressions whose type depends on more than themselves. -/
def Kind.isOpen (kind : Kind) : Bool :=
  kind = callExpression || kind = memberExpression || kind = subscriptExpression ||
    kind = shorthandProperty || kind.isFunctionLiteral

namespace Place

/-- A place where the constructor of a new object is named. -/
def IsConstructor (place : Place) : Prop :=
  place.node.field = some .builder ∧ place.parent?.map (·.kind) = some .newExpression

instance (place : Place) : Decidable place.IsConstructor :=
  inferInstanceAs (Decidable (_ ∧ _))

/-- At and below the place there is nothing open, and no name but `undefined` and the names of
constructors. -/
def Closed (place : Place) : Prop :=
  ∀ p ∈ place.preorder, p.node.kind.isOpen = false ∧
    (p.node.kind = .identifier → p.node.text = some "undefined" ∨ p.IsConstructor)

instance (place : Place) : Decidable place.Closed :=
  inferInstanceAs (Decidable (∀ p ∈ place.preorder, _ ∧ _))

/-- The children of a place are places. -/
theorem child_mem_preorderFrom {p : Place} {c n : Node} {above : List Node}
    (hp : p ∈ preorderFrom above n) (hc : c ∈ p.node.children) :
    ⟨c, p.node :: p.above⟩ ∈ preorderFrom above n := by
  induction n using Node.induction generalizing above with
  | step n ih =>
    rw [preorderFrom_eq] at hp ⊢
    rcases List.mem_cons.1 hp with rfl | hp
    · refine List.mem_cons_of_mem _ (List.mem_flatMap.2 ⟨c, hc, ?_⟩)
      rw [preorderFrom_eq]
      exact List.mem_cons_self
    · obtain ⟨child, hchild, hp⟩ := List.mem_flatMap.1 hp
      exact List.mem_cons_of_mem _ (List.mem_flatMap.2 ⟨child, hchild, ih child hchild hp⟩)

theorem exists_of_mem_preorder {place : Place} {n : Node} (hn : n ∈ place.node.preorder) :
    ∃ p ∈ place.preorder, p.node = n := by
  rw [← map_node_preorder] at hn
  exact List.mem_map.1 hn

namespace Closed

variable {place : Place} {n c : Node}

theorem not_isOpen (h : place.Closed) (hn : n ∈ place.node.preorder) : n.kind.isOpen = false := by
  obtain ⟨p, hp, rfl⟩ := exists_of_mem_preorder hn
  exact (h p hp).1

/-- Below a closed place a name is `undefined`, unless it is a child of a new object. -/
theorem child (h : place.Closed) (hn : n ∈ place.node.preorder) (hc : c ∈ n.children)
    (hk : n.kind ≠ .newExpression) :
    c ∈ place.node.preorder ∧ (c.kind = .identifier → c.text = some "undefined") := by
  refine ⟨Node.mem_preorder_trans hn (Node.mem_preorder_of_mem_children hc), fun hidentifier => ?_⟩
  obtain ⟨p, hp, rfl⟩ := exists_of_mem_preorder hn
  have hname := (h _ (child_mem_preorderFrom hp hc)).2 hidentifier
  refine hname.resolve_right fun hconstructor => hk ?_
  simpa [parent?] using hconstructor.2

end Closed

end Place

namespace Typing

/-! ## Typing without effects -/

/-- Computations in a session that give the same answer as one without effects, and do nothing but
read the clock. -/
def Coupling.still : Coupling SessionM Id where
  holds P x y := (∀ s, ∃ readings, outcome x s = (y.run, { s with readings := readings })) ∧ P y.run
  pure ha := ⟨fun s => ⟨s.readings, rfl⟩, ha⟩
  bind := by
    rintro α β P P' x y f g ⟨hxy, hy⟩ hf
    obtain ⟨hfg, hg⟩ := hf y.run hy
    refine ⟨fun s => ?_, hg⟩
    obtain ⟨before, hx⟩ := hxy s
    rw [outcome_bind, hx]
    exact hfg { s with readings := before }

/-- That stays so inside an expression. -/
theorem still_nested {α : Type} {P : α → Prop} {x : SessionM α} {y : Id α}
    (h : Coupling.still.holds P x y) : Coupling.still.holds P (nested x) y := by
  refine ⟨fun s => ?_, h.2⟩
  obtain ⟨readings, hx⟩ := h.1 { s with nesting := s.nesting + 1 }
  refine ⟨readings, ?_⟩
  rw [outcome_nested, hx]
  rfl

theorem ne_new_of_namesFunctions {kind : Kind} (h : kind.namesFunctions = false) :
    kind ≠ .newExpression := by
  rintro rfl
  simp [Kind.namesFunctions] at h

theorem mem_preorder_callee {root n c : Node} (hn : n ∈ root.preorder)
    (hc : n.child? .callee = some c) : c.unwrapParens ∈ root.preorder :=
  Node.mem_preorder_trans (Node.mem_preorder_trans hn (Node.mem_preorder_of_child? hc))
    (Node.unwrapParens_mem_preorder c)

/-- The region of a closed expression. Nothing in it names or declares a function. -/
def Region.closed {place : Place} (h : place.Closed) : Region .empty where
  typed n := n ∈ place.node.preorder ∧ (n.kind = .identifier → n.text = some "undefined")
  evaluated _ := False
  bound _ := False
  read _ := True
  offered _ := False
  typed_unwrapParens := by
    rintro n ⟨hn, hname⟩
    rcases Node.unwrapParens_eq_or n with heq | ⟨parens, hparens, hk, hchild⟩
    · rw [heq]
      exact ⟨hn, hname⟩
    · exact h.child (Node.mem_preorder_trans hn hparens) hchild (by simp [hk])
  typed_operand := by
    rintro n c ⟨hn, -⟩ hk hc
    exact h.child hn (List.mem_filter.1 hc).1 (ne_new_of_namesFunctions hk)
  typed_child := by
    rintro n c field ⟨hn, -⟩ hk hc
    exact h.child hn (List.mem_of_find?_eq_some hc) (ne_new_of_namesFunctions hk)
  typed_argument := by
    rintro n c ⟨hn, -⟩ hc
    obtain ⟨list, hlist, hk, hchild⟩ := Node.mem_callArguments hc
    exact h.child (Node.mem_preorder_trans hn hlist) hchild (by simp [hk])
  typed_callee hn hc hk := by
    have hopen := h.not_isOpen (mem_preorder_callee hn.1 hc)
    simp [hk, Kind.isOpen] at hopen
  typed_return hn _ := hn.elim
  typed_resolved hn _ := hn.elim
  evaluated_literal hn hk := by
    have hopen := h.not_isOpen hn.1
    simp [hk, Kind.isOpen] at hopen
  evaluated_callee hn hc hk := by
    have hopen := h.not_isOpen (mem_preorder_callee hn.1 hc)
    simp [hk, Kind.isOpen] at hopen
  evaluated_function hf := by simp [CallGraph.empty] at hf
  params_function hf := by simp [CallGraph.empty] at hf
  read_identifier _ _ _ := trivial
  read_shorthand _ _ _ := trivial
  read_literal _ _ _ := trivial
  read_callee _ _ _ _ _ := trivial
  read_param _ _ _ := trivial
  offered_param hn _ _ := hn.elim
  offered_bound hn _ _ := hn.elim
  typed_default hn _ _ := hn.elim
  bound_left hn _ _ := hn.elim
  bound_value hn _ _ := hn.elim
  bound_operand hn _ _ := hn.elim

/-- Typing an expression of a closed region in a session and without one, by induction on the room.
Each of the expressions may be the first for which the time is used up. -/
theorem still_inferWithin {place : Place} (h : place.Closed) (scope : Scope) (room : Nat)
    {n n' : Node} (hn : (Region.closed h).typed n) (hcommented : n.Commented Eq n') :
    Coupling.still.holds Standard.anything.Meets (inferWithin scope room n)
      (structuralWithin room n') := by
  induction room generalizing n n' with
  | zero => exact ⟨fun s => ⟨s.readings + 1, rfl⟩, Standard.meets_unknown⟩
  | succ room ih =>
    -- None of the forms that a session treats in its own way is closed.
    have hopen : ∀ {c : Node}, (Region.closed h).typed c → c.kind.isOpen = true → False := by
      intro c hc hkind
      simp [h.not_isOpen hc.1] at hkind
    have ht : Coupling.still.Treats (Region.closed h) Eq .anything
        (sessionForms scope (inferWithin scope room)) (structuralForms (structuralWithin room)) :=
      { infer := ih
        name := fun hc hasks => by
          rcases hasks with ⟨hidentifier, htext⟩ | hk
          · exact absurd (hc.2 hidentifier) htext
          · exact (hopen hc (by simp [hk, Kind.isOpen])).elim
        functionLiteral := fun hc hk _ => (hopen hc (by simp [hk, Kind.isOpen])).elim
        call := fun hc hk _ => (hopen hc (by simp [hk, Kind.isOpen])).elim
        member := fun hc hk _ => (hopen hc (by simp [hk, Kind.isOpen])).elim
        subscript := fun hc hk _ => (hopen hc (by simp [hk, Kind.isOpen])).elim }
    obtain ⟨hstill, hmeets⟩ := still_nested
      (ht.typeOf ((Region.closed h).typed_unwrapParens hn) hcommented.unwrapParens)
    refine ⟨fun s => ?_, hmeets⟩
    cases hexpired : scope.limits.expired s.readings with
    | true =>
      have heq := (structuralWithin_commented .anything (room + 1) hcommented).1
      exact ⟨s.readings + 1, by rw [outcome_inferWithin_of_expired hexpired, heq]⟩
    | false =>
      rw [outcome_inferWithin_of_not_expired hexpired]
      exact hstill { s with readings := s.readings + 1 }

/-- Literals are typed alike by all typers. -/
theorem exists_typeOf_literal {n : Node} (h : n.kind.isLiteral = true) :
    ∃ e, ∀ {m : Type → Type} [Monad m] (forms : Forms m), forms.typeOf n = pure e := by
  unfold Forms.typeOf
  cases hk : n.kind <;> simp [hk, Kind.isLiteral] at h <;> exact ⟨_, fun _ => rfl⟩

/-- Where there is room, literals are typed by their kind alone, with one look at the clock. -/
theorem outcome_infer_literal {n : Node} (h : n.unwrapParens.kind.isLiteral = true) (scope : Scope)
    {s : Session} (hroom : s.nesting < maxNesting) :
    outcome (infer scope n) s = (structural n, { s with readings := s.readings + 1 }) := by
  obtain ⟨e, he⟩ := exists_typeOf_literal h
  have hstructural (room : Nat) : (structuralWithin (room + 1) n).run = e := by
    rw [structuralWithin, he]
    rfl
  obtain ⟨room, hleft⟩ : ∃ room, maxNesting - s.nesting = room + 1 :=
    ⟨maxNesting - s.nesting - 1, by omega⟩
  have hall : structural n = e := hstructural _
  show outcome (inferWithin scope (maxNesting - s.nesting) n) s = _
  rw [hleft, hall]
  cases hexpired : scope.limits.expired s.readings with
  | true => rw [outcome_inferWithin_of_expired hexpired, hstructural]
  | false =>
    rw [outcome_inferWithin_of_not_expired hexpired, he]
    rfl

/-- A closed expression, unless it is itself the name of a constructor, is typed in a session as it
is structurally from the same nesting, whenever the time is used up on the way, and nothing changes
but the count of the readings of the clock. The literals among the arguments of the calls of a
program, which are typed once and for all, are typed so in every session that still has room. -/
theorem closed_typed_structurally :
    (∀ place : Place, place.Closed →
      (place.node.kind = .identifier → place.node.text = some "undefined") →
      ∀ (scope : Scope) (s : Session), ∃ readings,
        outcome (infer scope place.node) s =
          ((structuralWithin (maxNesting - s.nesting) place.node).run,
            { s with readings := readings })) ∧
      ∀ program : Place, ∀ site ∈ (CallGraph.ofProgram program).sites, ∀ argument e,
        (argument, some e) ∈ site.node.callArguments.zip site.arguments →
        ∀ (scope : Scope) (s : Session), s.nesting < maxNesting →
          outcome (infer scope argument) s = (e, { s with readings := s.readings + 1 }) := by
  constructor
  · intro place hclosed hname scope s
    have htyped : (Region.closed hclosed).typed place.node := ⟨Node.mem_preorder_self _, hname⟩
    exact (still_inferWithin hclosed scope _ htyped (.refl (fun _ => rfl) _)).1 s
  · intro program site hsite argument e hargument scope s hroom
    obtain ⟨place, -, hnode, -, harguments⟩ := CallGraph.exists_place_of_mem_sites hsite
    rw [harguments, hnode, ← List.map_prod_left_eq_zip] at hargument
    obtain ⟨node, -, heq⟩ := List.mem_map.1 hargument
    obtain ⟨rfl, htype⟩ := Prod.mk.inj heq
    unfold CallSite.literalType? at htype
    split at htype
    · rw [outcome_infer_literal ‹_› scope hroom]
      cases htype
      rfl
    · cases htype

/-- The name of a constructor. -/
def box : Node := ⟨4, .identifier, some .builder, true, some "Box", []⟩

/-- A new object made by the constructor. -/
def newBox (args : List Node) : Node :=
  ⟨2, .newExpression, none, true, none,
    [⟨3, .other "new", none, false, some "new", []⟩, box,
      ⟨5, .arguments, some .arguments, true, none, args⟩]⟩

/-- An object that holds a new object made from `undefined`. -/
def boxed : Place where
  node :=
    ⟨0, .object, none, true, none,
      [⟨1, .pair, none, true, none,
        [⟨8, .propertyIdentifier, some .key, true, some "content", []⟩,
          { newBox [⟨6, .identifier, none, true, some "undefined", []⟩] with
            field := some .value }]⟩]⟩
  above := []

/-- A call with a number and a name. -/
def called : Place where
  node :=
    ⟨0, .callExpression, none, true, none,
      [⟨1, .identifier, some .callee, true, some "f", []⟩,
        ⟨2, .arguments, some .arguments, true, none,
          [⟨3, .number, none, true, some "1", []⟩,
            ⟨4, .identifier, none, true, some "Box", []⟩]⟩]⟩
  above := []

/-- A session in which the name of the constructor is held for a number. -/
def boxIsNumber : Session := .start ⟨.ofEntries [("Box", .of .number .one)], .empty⟩

theorem closed_typed_structurally_boxed :
    boxed.Closed ∧ boxed.node.kind ≠ .identifier ∧
      (∀ scope, ∃ readings, outcome (infer scope boxed.node) boxIsNumber =
        (⟨.object, .objectLiteral,
          some [("content", .of (.generic "Box" []) .unknownConstructor)]⟩,
          { boxIsNumber with readings := readings })) ∧
      ∀ scope, outcome (infer scope ⟨3, .number, none, true, some "1", []⟩) boxIsNumber =
        (.of .number .certain, { boxIsNumber with readings := 1 }) := by
  have hclosed : boxed.Closed := by decide
  refine ⟨hclosed, by decide, fun scope => ?_, fun scope => ?_⟩
  · exact closed_typed_structurally.1 boxed hclosed (by decide) scope boxIsNumber
  · exact closed_typed_structurally.2 called _ (.head _) _ _ (.head _) scope boxIsNumber
      (by decide)

/-- A name that is itself that of a constructor is looked up in a session. -/
theorem constructor_name_looked_up :
    let place : Place := ⟨box, [newBox []]⟩
    place ∈ Place.preorder ⟨newBox [], []⟩ ∧ place.Closed ∧
      outcome (infer ⟨.empty, ⟨8, fun _ => false⟩⟩ place.node) boxIsNumber =
        (.of .number .one, { boxIsNumber with readings := 1 }) ∧
      structural place.node = .unknown := by
  refine ⟨.tail _ (.tail _ (.head _)), by decide, rfl, rfl⟩

end Typing

end ScriptTypes
