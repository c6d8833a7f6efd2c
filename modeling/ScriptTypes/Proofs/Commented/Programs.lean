import ScriptTypes.Inference
import ScriptTypes.Proofs.Pairing.Resolution

/-!
# Programs with comments put in

Whatever is read off a program (the names that it declares, its functions and calls, the uses of
names) is the same if comments are put in. A place counts with its ancestors, of which only the kind
and the children in fields are looked at; of the program as a whole only the kind.

* `Node.Alike`: nodes that are the same to whatever stands below them.
* `Place.Commented`: a place of a program in which comments were put in.
* `Place.Commented.preorder`: the places of the two programs, one by one.
* `Node.Commented.collect`: the names that are collected.
* `Place.Commented.functions`, `Place.Commented.sites`: the call graphs.
* `Place.Commented.uses`: the uses that are observed.
-/

namespace ScriptTypes

/-! ## Ancestors -/

/-- The nodes are the same to whatever stands below them: both are whole programs, or they have the
same children in fields, up to comments. -/
structure Node.Alike (links : Nat → Nat → Prop) (n n' : Node) : Prop where
  kind : n'.kind = n.kind
  child? : n.kind = .program ∨ ∀ field,
    Option.Rel (Node.Commented links) (n.child? field) (n'.child? field)

/-- The second place is the first in a program in which comments were put in. -/
structure Place.Commented (links : Nat → Nat → Prop) (place place' : Place) : Prop where
  node : place.node.Commented links place'.node
  above : List.Forall₂ (Node.Alike links) place.above place'.above

theorem Node.Commented.alike {links : Nat → Nat → Prop} {n n' : Node} (h : n.Commented links n') :
    n.Alike links n' := ⟨h.kind, .inr h.child?⟩

namespace Node.Alike

variable {links : Nat → Nat → Prop} {n n' : Node} (h : n.Alike links n')

include h

theorem text_child? (hk : n.kind ≠ .program) (field : Field) :
    (n'.child? field).bind (·.text) = (n.child? field).bind (·.text) :=
  bind_eq_of_rel (h.child?.resolve_left hk field) fun _ _ hc => hc.text

theorem identifierName?_child? (hk : n.kind ≠ .program) (field : Field) :
    (n'.child? field).bind identifierName? = (n.child? field).bind identifierName? :=
  bind_eq_of_rel (h.child?.resolve_left hk field) fun _ _ hc => hc.identifierName?

theorem binaryOperator? : Place.binaryOperator? n' = Place.binaryOperator? n := by
  unfold Place.binaryOperator?
  rw [h.kind]
  split
  · rename_i hk
    exact h.text_child? (by simp [hk]) .operator
  · rfl

/-- The same child stands in a field, where no label is linked to several. -/
theorem hasIn (hlinks : Relator.BiUnique links) (hk : n.kind ≠ .program) (field : Field)
    {c c' : Node} (hc : links c.label c'.label) : n'.hasIn field c' = n.hasIn field c := by
  unfold Node.hasIn
  rcases rel_cases (h.child?.resolve_left hk field) with ⟨hl, hr⟩ | ⟨d, d', hl, hr, hd⟩
  · rw [hl, hr]
    rfl
  · rw [hl, hr, Option.any_some, Option.any_some, decide_eq_decide]
    exact (Relator.rel_eq hlinks hd.label hc).symm

end Node.Alike

namespace Place

variable {links : Nat → Nat → Prop} {above above' : List Node}

/-! ## Names of functions -/

theorem functionName?_alike (place place' : Place) (hnode : place.node.Alike links place'.node)
    (habove : List.Forall₂ (Node.Alike links) place.above place'.above) :
    place'.functionName? = place.functionName? := by
  unfold functionName? parent?
  rw [hnode.kind]
  split
  · rename_i hk
    refine hnode.text_child? (fun hp => ?_) .name
    simp [hp, Kind.isFunctionDeclaration] at hk
  · split
    · rcases rel_cases (rel_head? habove) with ⟨hl, hr⟩ | ⟨parent, parent', hl, hr, hparent⟩
      · rw [hl, hr]
      · simp only [hl, hr, hparent.kind]
        split
        · rename_i hk
          exact hparent.identifierName?_child? (by simp [hk]) .name
        · rfl
    · rfl

theorem nearestFunctionName?_alike (h : List.Forall₂ (Node.Alike links) above above') :
    nearestFunctionName? above' = nearestFunctionName? above := by
  induction h with
  | nil => rfl
  | cons hnode habove ih =>
    have hname := functionName?_alike ⟨_, _⟩ ⟨_, _⟩ hnode habove
    rw [nearestFunctionName?, nearestFunctionName?, hnode.kind, ih, hname]

/-! ## What one use says -/

theorem arithmeticTag_alike (operator : String) (h : List.Forall₂ (Node.Alike links) above above') :
    arithmeticTag operator above' = arithmeticTag operator above := by
  have haround : Option.Rel (Node.Alike links) (above.find? (·.kind ≠ .parenthesizedExpression))
      (above'.find? (·.kind ≠ .parenthesizedExpression)) :=
    (Interspersed.of_forall₂ h).find? nofun fun _ _ hnode => by rw [hnode.kind]
  unfold arithmeticTag
  rcases rel_cases haround with ⟨hl, hr⟩ | ⟨around, around', hl, hr, ha⟩
  · rw [hl, hr]
  · simp only [hl, hr, ha.binaryOperator?]

theorem comparisonTag?_alike (hlinks : Relator.BiUnique links)
    {operand operand' binary binary' : Node} (hoperand : links operand.label operand'.label)
    (h : binary.Alike links binary') (hk : binary.kind ≠ .program) :
    comparisonTag? operand' binary' = comparisonTag? operand binary := by
  unfold comparisonTag?
  rw [h.hasIn hlinks hk .left hoperand]
  dsimp only
  split
  · refine bind_eq_of_rel (h.child?.resolve_left hk .right) fun _ _ hc => ?_
    rw [hc.unwrapParens.kind]
  · refine bind_eq_of_rel (h.child?.resolve_left hk .left) fun _ _ hc => ?_
    rw [hc.unwrapParens.kind]

namespace Commented

variable {place place' : Place} (h : place.Commented links place')

include h

theorem functionName? : place'.functionName? = place.functionName? :=
  functionName?_alike place place' h.node.alike h.above

theorem enclosingFunctionName? : place'.enclosingFunctionName? = place.enclosingFunctionName? :=
  nearestFunctionName?_alike h.above

theorem isBinding (hlinks : Relator.BiUnique links) : place'.isBinding = place.isBinding := by
  unfold Place.isBinding parent?
  rcases rel_cases (rel_head? h.above) with ⟨hl, hr⟩ | ⟨parent, parent', hl, hr, hparent⟩
  · rw [hl, hr]
  · simp only [hl, hr, hparent.kind]
    by_cases hk : parent.kind = .program
    · simp [hk, Kind.isFunction, Kind.isFunctionDeclaration, Kind.isFunctionLiteral]
    · have hin : ∀ field, parent'.hasIn field place'.node = parent.hasIn field place.node :=
        fun field => hparent.hasIn hlinks hk field h.node.label
      simp only [hin]

theorem usage? (hlinks : Relator.BiUnique links) : place'.usage? = place.usage? := by
  obtain ⟨node, above⟩ := place
  obtain ⟨node', above'⟩ := place'
  obtain ⟨hnode, habove⟩ := h
  have hlabel : links node.label node'.label := hnode.label
  cases habove with
  | nil => rfl
  | @cons parent parent' above above' hparent habove =>
    unfold Place.usage?
    simp only [hparent.kind, hparent.binaryOperator?, arithmeticTag_alike _ habove]
    split
    · rename_i hk
      simp only [comparisonTag?_alike hlinks hlabel hparent (by simp [hk])]
    · rename_i hk
      have hindex : (parent'.child? .index).any (·.kind = .number) =
          (parent.child? .index).any (·.kind = .number) := by
        rcases rel_cases (hparent.child?.resolve_left (by simp [hk]) .index) with
          ⟨hl, hr⟩ | ⟨c, c', hl, hr, hc⟩
        · rw [hl, hr]
        · simp only [hl, hr, Option.any_some, hc.kind]
      rw [hindex, hparent.hasIn hlinks (by simp [hk]) .object hlabel]
    · rename_i hk
      simp only [Node.memberName?, hparent.text_child? (by simp [hk]) .property,
        hparent.hasIn hlinks (by simp [hk]) .object hlabel]
    · rfl

end Commented

/-! ## All places -/

theorem preorderFrom_commented : ∀ {n n' : Node},
    n.Commented links n' →
    ∀ {above above' : List Node}, List.Forall₂ (Node.Alike links) above above' →
    Interspersed (·.node.IsRemark) (Commented links) (preorderFrom above n)
      (preorderFrom above' n') := by
  intro n
  induction n using Node.induction with
  | step n ih =>
    intro n' h above above' habove
    rw [preorderFrom_eq, preorderFrom_eq above']
    have hbelow : List.Forall₂ (Node.Alike links) (n :: above) (n' :: above') :=
      .cons h.alike habove
    refine .keep ⟨h, habove⟩ (h.children.flatMap (fun c hc place hplace => ?_) fun c hc c' hcc =>
      ih c hc hcc hbelow)
    rw [preorderFrom_eq, hc.children, List.flatMap_nil, List.mem_singleton] at hplace
    exact hplace ▸ hc

/-- The places of the two programs are related one by one, the comments left out. -/
theorem Commented.preorder {place place' : Place} (h : place.Commented links place') :
    Interspersed (·.node.IsRemark) (Commented links) place.preorder place'.preorder :=
  preorderFrom_commented h.node h.above

end Place

/-! ## Collected names -/

namespace Node.Commented

variable {links : Nat → Nat → Prop}

theorem names_bindings : ∀ {n n' : Node}, n.Commented links n' →
    n'.bindings.map (·.name) = n.bindings.map (·.name) := by
  intro n
  induction n using Node.induction with
  | step n ih =>
    intro n' h
    have hchild : ∀ field, ((n'.child? field).elim [] bindings).map (·.name) =
        ((n.child? field).elim [] bindings).map (·.name) := by
      intro field
      rcases rel_cases (h.child? field) with ⟨hl, hr⟩ | ⟨c, c', hl, hr, hc⟩
      · rw [hl, hr]
      · rw [hl, hr]
        exact ih c (List.mem_of_find?_eq_some hl) hc
    rw [bindings_eq, bindings_eq n, h.kind, h.text]
    -- The kinds of targets in the order of `bindings_eq`: names, pairs, defaults, patterns.
    split
    iterate 2
      · split
        · split <;> rfl
        · rfl
    · exact hchild .value
    iterate 2 · exact hchild .left
    iterate 3
      · rw [List.map_flatMap, List.map_flatMap]
        refine (Interspersed.of_forall₂ h.operands).flatMap_eq nofun fun c hc c' hcc => ?_
        exact ih c (List.mem_filter.1 hc).1 hcc
    · rfl

end Node.Commented

namespace Seed

variable {links : Nat → Nat → Prop} {n n' : Node}

theorem ofPattern_commented {pattern pattern' : Option Node}
    (h : Option.Rel (Node.Commented links) pattern pattern') :
    ofPattern pattern' = ofPattern pattern := by
  rcases rel_cases h with ⟨rfl, rfl⟩ | ⟨c, c', rfl, rfl, hc⟩
  · rfl
  · have hnames := congrArg (List.map fun name => (name, floor)) hc.names_bindings
    rw [List.map_map, List.map_map] at hnames
    exact hnames

theorem ofValue_commented (name : Option String) {value value' : Option Node}
    (h : Option.Rel (Node.Commented links) value value') :
    ofValue name value' = ofValue name value := by
  rcases rel_cases h with ⟨rfl, rfl⟩ | ⟨c, c', rfl, rfl, hc⟩
  · rfl
  · exact congrArg (forName name) (Typing.structural_commented hc)

theorem ofParam_commented {p p' : Param} (h : p.Commented links p') : ofParam p' = ofParam p := by
  unfold ofParam
  rw [h.isRest, h.name, ofPattern_commented h.pattern, ofValue_commented _ h.default]

theorem ofDeclarator_commented (h : n.Commented links n') : ofDeclarator n' = ofDeclarator n := by
  unfold ofDeclarator
  rcases rel_cases (h.child? .name) with ⟨hl, hr⟩ | ⟨c, c', hl, hr, hc⟩
  · rw [hl, hr]
  · simp only [hl, hr, hc.kind, hc.text, ofPattern_commented (.some hc),
      ofValue_commented _ (h.child? .value)]

theorem ofFunction_commented (h : n.Commented links n') : ofFunction n' = ofFunction n := by
  unfold ofFunction
  have hparams : n'.params.flatMap ofParam = n.params.flatMap ofParam :=
    (Interspersed.of_forall₂ h.params).flatMap_eq nofun fun _ _ _ hp => ofParam_commented hp
  rw [h.kind, h.text_child? .name, hparams]

theorem ofNode_commented (h : n.Commented links n') : ofNode n' = ofNode n := by
  unfold ofNode
  rw [h.kind, ofDeclarator_commented h, ofFunction_commented h]

theorem ofNode_remark (h : n.IsRemark) : ofNode n = [] := by
  simp [ofNode, h.kind, Kind.isFunction, Kind.isFunctionDeclaration, Kind.isFunctionLiteral]

end Seed

/-- The names that are collected, with their seeds. -/
theorem Node.Commented.collect {links : Nat → Nat → Prop} {n n' : Node} (h : n.Commented links n') :
    TypeMap.collect n' = TypeMap.collect n := by
  have hseeds : Seed.ofProgram n' = Seed.ofProgram n :=
    h.preorder.flatMap_eq (fun _ => Seed.ofNode_remark) fun _ _ _ => Seed.ofNode_commented
  rw [TypeMap.collect, TypeMap.collect, hseeds]

/-! ## Call graphs -/

section

variable {links : Nat → Nat → Prop} {place place' : Place}

theorem DeclaredFunction.register_commented {found found' : List DeclaredFunction}
    (hfound : List.Forall₂ (DeclaredFunction.Commented links) found found')
    (h : place.Commented links place') :
    List.Forall₂ (DeclaredFunction.Commented links) (register found place)
      (register found' place') := by
  unfold register
  rw [h.functionName?]
  split
  · exact hfound
  · rename_i name _
    have htaken : found'.any (·.name = name) = found.any (·.name = name) :=
      (Interspersed.of_forall₂ hfound).any_eq nofun fun _ _ hf => by rw [hf.name]
    rw [htaken]
    split
    · exact hfound
    · exact List.rel_append hfound (.cons ⟨rfl, h.node.params, h.node, h.node.isAsync⟩ .nil)

theorem DeclaredFunction.foldl_register_commented {places places' : List Place}
    (h : List.Forall₂ (Place.Commented links) places places') {found found' : List DeclaredFunction}
    (hfound : List.Forall₂ (DeclaredFunction.Commented links) found found') :
    List.Forall₂ (DeclaredFunction.Commented links) (places.foldl register found)
      (places'.foldl register found') := by
  induction h generalizing found found' with
  | nil => exact hfound
  | cons hplace _ ih => exact ih (register_commented hfound hplace)

theorem CallSite.literalType?_commented {n n' : Node} (h : n.Commented links n') :
    literalType? n' = literalType? n := by
  unfold literalType?
  rw [h.unwrapParens.kind, Typing.structural_commented h]

theorem CallSite.ofPlace?_commented (h : place.Commented links place') :
    Option.Rel (CallSite.Commented links) (ofPlace? place) (ofPlace? place') := by
  unfold ofPlace?
  rw [h.node.kind, h.node.calleeName?, h.enclosingFunctionName?]
  split
  · cases place.node.calleeName? with
    | none => exact .none
    | some callee =>
      exact .some ⟨rfl, map_eq_of_forall₂ h.node.callArguments fun _ _ => literalType?_commented,
        h.node, rfl⟩
  · exact .none

/-- The call graph of some places. -/
def CallGraph.ofPlaces (places : List Place) : CallGraph where
  functions := (places.filter (·.node.kind.isFunction)).foldl DeclaredFunction.register []
  sites := places.filterMap CallSite.ofPlace?

theorem CallGraph.ofProgram_eq (program : Place) : ofProgram program = ofPlaces program.preorder :=
  rfl

namespace Interspersed

variable {places places' : List Place}
  (h : Interspersed (·.node.IsRemark) (Place.Commented links) places places')

include h

theorem functions : List.Forall₂ (DeclaredFunction.Commented links)
    (CallGraph.ofPlaces places).functions (CallGraph.ofPlaces places').functions := by
  have hplaces : List.Forall₂ (Place.Commented links) (places.filter (·.node.kind.isFunction))
      (places'.filter (·.node.kind.isFunction)) := by
    refine h.filter (fun c hc => ?_) fun _ _ hc => by rw [hc.node.kind]
    rw [hc.kind]
    rfl
  exact DeclaredFunction.foldl_register_commented hplaces .nil

theorem sites : List.Forall₂ (CallSite.Commented links) (CallGraph.ofPlaces places).sites
    (CallGraph.ofPlaces places').sites := by
  refine h.filterMap (fun c hc => ?_) fun _ _ _ hc => CallSite.ofPlace?_commented hc
  simp [CallSite.ofPlace?, hc.kind]

end Interspersed

namespace Place.Commented

variable (h : place.Commented links place')

include h

/-- The functions of the two call graphs. -/
theorem functions : List.Forall₂ (DeclaredFunction.Commented links)
    (CallGraph.ofProgram place).functions (CallGraph.ofProgram place').functions :=
  h.preorder.functions

/-- The calls of the two call graphs. -/
theorem sites : List.Forall₂ (CallSite.Commented links) (CallGraph.ofProgram place).sites
    (CallGraph.ofProgram place').sites := h.preorder.sites

/-- The names of the functions in the two call graphs. -/
theorem declares (name : String) :
    (CallGraph.ofProgram place').declares name = (CallGraph.ofProgram place).declares name :=
  (Interspersed.of_forall₂ h.functions).any_eq nofun fun _ _ hf => by rw [hf.name]

end Place.Commented

end

/-! ## Uses -/

theorem Usage.observe_commented {links : Nat → Nat → Prop} (hlinks : Relator.BiUnique links)
    {place place' : Place} (h : place.Commented links place') (types : TypeMap) (usage : Usage) :
    observe types usage place' = observe types usage place := by
  unfold observe
  rw [h.node.kind, h.isBinding hlinks, h.node.text, h.usage? hlinks]

/-- The uses that are observed. -/
theorem Place.Commented.uses {links : Nat → Nat → Prop} (hlinks : Relator.BiUnique links)
    {place place' : Place} (h : place.Commented links place') (types : TypeMap) :
    Usage.ofProgram place' types = Usage.ofProgram place types := by
  refine h.preorder.foldl_eq (fun c hc usage => ?_)
    (fun _ _ hc usage => Usage.observe_commented hlinks hc types usage) .empty
  simp [Usage.observe, hc.kind]

end ScriptTypes
