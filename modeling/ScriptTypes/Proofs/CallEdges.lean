import ScriptTypes.Proofs.Program

/-!
# What the call graph says

The functions of the call graph are found on the way down through a program, the function around a
call on the way up from it. In a whole tree both ways meet the same nodes, so that every caller is a
function of the graph.

* `Place.Declares`, `Place.Calls`, `Place.CalledFrom`: functions with a name, calls by name, and the
  nearest function with a name around a place.
* `Place.mem_preorder_of_encloses`: what is around a place of a whole tree is a place of the tree.
* `Place.enclosingFunctionName?_eq_some_iff`: the way up finds the nearest function with a name.
* `CallGraph.function?_ofProgram`: a function is known by the first place that declares it.
* `CallGraph.call_graph_exact`: all that the graph says of a whole tree.
-/

namespace ScriptTypes

namespace Place

/-! ## Places around a place -/

/-- A place whose node is an ancestor of another. -/
def Encloses (outer place : Place) : Prop := outer.node :: outer.above <:+ place.above

mutual

theorem mem_preorderFrom_of_encloses {outer place : Place} (h : outer.Encloses place) :
    ∀ {above : List Node} {n : Node}, place ∈ preorderFrom above n →
      outer ∈ preorderFrom above n ∨ outer.node :: outer.above <:+ above
  | above, ⟨label, kind, field, named, text, children⟩, hplace => by
    rw [preorderFrom, List.mem_cons] at hplace
    rw [preorderFrom, List.mem_cons]
    rcases hplace with rfl | hplace
    · exact .inr h
    · rcases mem_preorderFromAll_of_encloses h hplace with hinside | hsuffix
      · exact .inl (.inr hinside)
      · rcases List.suffix_cons_iff.1 hsuffix with heq | hsuffix
        · obtain ⟨hnode, habove⟩ := List.cons_eq_cons.1 heq
          obtain ⟨node, above'⟩ := outer
          exact .inl (.inl (by rw [← hnode, ← habove]))
        · exact .inr hsuffix

theorem mem_preorderFromAll_of_encloses {outer place : Place} (h : outer.Encloses place) :
    ∀ {above : List Node} {nodes : List Node}, place ∈ preorderFromAll above nodes →
      outer ∈ preorderFromAll above nodes ∨ outer.node :: outer.above <:+ above
  | above, [], hplace => by simp [preorderFromAll] at hplace
  | above, node :: nodes, hplace => by
    rw [preorderFromAll, List.mem_append] at hplace
    rw [preorderFromAll, List.mem_append]
    rcases hplace with hplace | hplace
    · exact (mem_preorderFrom_of_encloses h hplace).imp_left .inl
    · exact (mem_preorderFromAll_of_encloses h hplace).imp_left .inr

end

/-- What is around a place of a whole tree is a place of the tree. -/
theorem mem_preorder_of_encloses {root : Node} {outer place : Place}
    (hplace : place ∈ preorder ⟨root, []⟩) (h : outer.Encloses place) :
    outer ∈ preorder ⟨root, []⟩ := by
  refine (mem_preorderFrom_of_encloses h hplace).resolve_right fun hsuffix => ?_
  simp at hsuffix

/-- A place that encloses another does not lie inside it. -/
theorem Encloses.asymm {outer place : Place} (h : outer.Encloses place) :
    ¬place.Encloses outer := by
  intro h'
  have hle : outer.above.length + 1 ≤ place.above.length := h.length_le
  have hle' : place.above.length + 1 ≤ outer.above.length := h'.length_le
  omega

/-! ## Functions with a name -/

/-- A function that is declared under a name. -/
structure Declares (place : Place) (name : String) : Prop where
  isFunction : place.node.kind.isFunction = true
  functionName? : place.functionName? = some name

instance (place : Place) (name : String) : Decidable (place.Declares name) :=
  decidable_of_iff (place.node.kind.isFunction = true ∧ place.functionName? = some name)
    ⟨fun h => ⟨h.1, h.2⟩, fun h => ⟨h.1, h.2⟩⟩

/-- A function around a place that is declared under a name that is not empty. -/
structure NamedAround (place outer : Place) (name : String) : Prop where
  encloses : outer.Encloses place
  declares : outer.Declares name
  ne_empty : name ≠ ""

/-- The nearest function with a name around a place: all others are around that one as well. -/
def CalledFrom (place : Place) (name : String) : Prop :=
  ∃ outer, place.NamedAround outer name ∧
    ∀ other more, place.NamedAround other more → other = outer ∨ other.Encloses outer

variable {node : Node} {above : List Node} {name : String}

theorem nearestFunctionName?_of_declares (h : Declares ⟨node, above⟩ name) (hname : name ≠ "") :
    nearestFunctionName? (node :: above) = some name := by
  simp [nearestFunctionName?, h.isFunction, h.functionName?, hname]

theorem nearestFunctionName?_of_not_declares
    (h : ∀ name, Declares ⟨node, above⟩ name → name = "") :
    nearestFunctionName? (node :: above) = nearestFunctionName? above := by
  rw [nearestFunctionName?]
  split
  · rename_i hfunction
    split
    · rename_i name hname
      rw [if_pos (h name ⟨hfunction, hname⟩)]
    · rfl
  · rfl

/-- What is around a place is its parent, or around the parent. -/
theorem namedAround_cons_iff {n : Node} {outer : Place} :
    NamedAround ⟨n, node :: above⟩ outer name ↔
      (outer = ⟨node, above⟩ ∧ outer.Declares name ∧ name ≠ "") ∨
        NamedAround ⟨node, above⟩ outer name := by
  obtain ⟨o, oabove⟩ := outer
  have hcons : o :: oabove <:+ node :: above ↔ o = node ∧ oabove = above ∨ o :: oabove <:+ above :=
    by rw [List.suffix_cons_iff, List.cons_eq_cons]
  constructor
  · rintro ⟨hencloses, hdeclares, hname⟩
    rcases hcons.1 hencloses with ⟨rfl, rfl⟩ | hsuffix
    · exact .inl ⟨rfl, hdeclares, hname⟩
    · exact .inr ⟨hsuffix, hdeclares, hname⟩
  · rintro (⟨heq, hdeclares, hname⟩ | ⟨hsuffix, hdeclares, hname⟩)
    · exact ⟨hcons.2 (.inl (by simpa using heq)), hdeclares, hname⟩
    · exact ⟨hcons.2 (.inr hsuffix), hdeclares, hname⟩

/-- The way up from a place finds the nearest function with a name. By induction on the ancestors:
the parent is the nearest, or it has no name and does not count. -/
theorem nearestFunctionName?_eq_some_iff {n : Node} :
    nearestFunctionName? above = some name ↔ CalledFrom ⟨n, above⟩ name := by
  induction above generalizing n with
  | nil =>
    refine ⟨nofun, fun ⟨outer, houter, _⟩ => ?_⟩
    have hencloses : outer.node :: outer.above <:+ [] := houter.encloses
    simp at hencloses
  | cons node above ih =>
    by_cases hnamed : ∃ own, Declares ⟨node, above⟩ own ∧ own ≠ ""
    · obtain ⟨own, hown, hempty⟩ := hnamed
      have hhead : NamedAround ⟨n, node :: above⟩ ⟨node, above⟩ own :=
        namedAround_cons_iff.2 (.inl ⟨rfl, hown, hempty⟩)
      rw [nearestFunctionName?_of_declares hown hempty]
      constructor
      · rintro ⟨⟩
        refine ⟨⟨node, above⟩, hhead, fun other more hother => ?_⟩
        exact (namedAround_cons_iff.1 hother).imp And.left NamedAround.encloses
      · rintro ⟨outer, houter, hnearest⟩
        have heq : ⟨node, above⟩ = outer := by
          refine (hnearest _ own hhead).resolve_right fun hinside => ?_
          rcases namedAround_cons_iff.1 houter with ⟨rfl, -⟩ | houter
          · exact hinside.asymm hinside
          · exact hinside.asymm houter.encloses
        subst heq
        rw [← houter.declares.functionName?, hown.functionName?]
    · have hskip : ∀ own, Declares ⟨node, above⟩ own → own = "" := fun own hown =>
        Decidable.byContradiction fun hempty => hnamed ⟨own, hown, hempty⟩
      have haround : ∀ outer own, NamedAround ⟨n, node :: above⟩ outer own ↔
          NamedAround ⟨node, above⟩ outer own := by
        intro outer own
        rw [namedAround_cons_iff, or_iff_right]
        rintro ⟨rfl, hown, hempty⟩
        exact hempty (hskip own hown)
      rw [nearestFunctionName?_of_not_declares hskip, ih (n := node)]
      simp only [CalledFrom, haround]

/-- The function around a place is the nearest one with a name. -/
theorem enclosingFunctionName?_eq_some_iff {place : Place} :
    place.enclosingFunctionName? = some name ↔ place.CalledFrom name :=
  nearestFunctionName?_eq_some_iff

end Place

/-! ## Functions of the graph -/

/-- The function at a place, under a name. -/
def DeclaredFunction.ofPlace (name : String) (place : Place) : DeclaredFunction :=
  ⟨name, place.node.params, place.node, place.node.isAsync⟩

/-- Of the places that are registered the first with a name counts, unless one was found before. -/
theorem DeclaredFunction.find?_foldl_register (places : List Place) (found : List DeclaredFunction)
    (name : String) :
    (places.foldl register found).find? (·.name = name) =
      (found.find? (·.name = name)).or
        ((places.find? (·.functionName? = some name)).map (ofPlace name)) := by
  induction places generalizing found with
  | nil => simp
  | cons place places ih =>
    rw [List.foldl_cons, ih, register, List.find?_cons]
    cases hown : place.functionName? with
    | none => simp
    | some own =>
      dsimp only
      by_cases hname : own = name
      · subst hname
        by_cases htaken : found.any (·.name = own) = true
        · obtain ⟨f, hf⟩ :=
            Option.isSome_iff_exists.1 (List.find?_isSome.2 (List.any_eq_true.1 htaken))
          simp [htaken, hf]
        · have hfree : found.find? (·.name = own) = none := by
            rw [List.find?_eq_none]
            exact fun f hf hf' => htaken (List.any_eq_true.2 ⟨f, hf, hf'⟩)
          simp [htaken, hfree, ofPlace]
      · by_cases htaken : found.any (·.name = own) = true
        · simp [htaken, hname]
        · simp [htaken, hname]

namespace CallGraph

variable {root : Place} {name : String}

/-- A function is known by the first place that declares it. -/
theorem function?_ofProgram :
    (ofProgram root).function? name =
      (root.preorder.find? (·.Declares name)).map (.ofPlace name) := by
  have hdeclares : ∀ place : Place, decide (place.node.kind.isFunction = true ∧
      decide (place.functionName? = some name) = true) = decide (place.Declares name) := by
    intro place
    rw [decide_eq_decide, decide_eq_true_eq]
    exact ⟨fun h => ⟨h.1, h.2⟩, fun h => ⟨h.1, h.2⟩⟩
  rw [function?, ofProgram, DeclaredFunction.find?_foldl_register, List.find?_filter]
  simp only [hdeclares, List.find?_nil, Option.none_or]

theorem declares_iff_exists {graph : CallGraph} :
    graph.declares name = true ↔ ∃ f, graph.function? name = some f := by
  rw [declares, function?, ← Option.isSome_iff_exists, List.find?_isSome, List.any_eq_true]

/-- The functions of the graph have the names under which functions are declared. -/
theorem declares_ofProgram_iff :
    (ofProgram root).declares name = true ↔ ∃ place ∈ root.preorder, place.Declares name := by
  simp [declares_iff_exists, function?_ofProgram, ← Option.isSome_iff_exists]

end CallGraph

/-! ## Calls of the graph -/

/-- A call of a function by a name. -/
def Place.Calls (place : Place) (name : String) : Prop :=
  place.node.kind = .callExpression ∧
    ∃ callee, place.node.child? .callee = some callee ∧ callee.kind = .identifier ∧
      callee.text = some name

theorem Place.calls_iff {place : Place} {name : String} :
    place.Calls name ↔
      place.node.kind = .callExpression ∧ place.node.calleeName? = some name := by
  have hidentifier : ∀ callee : Node, callee.identifierName? = some name ↔
      callee.kind = .identifier ∧ callee.text = some name := by
    intro callee
    rw [Node.identifierName?]
    split <;> simp_all
  simp only [Calls, Node.calleeName?, Option.bind_eq_some_iff, hidentifier]

instance : DecidablePred fun place : Place => ∃ name, place.Calls name := fun place =>
  decidable_of_iff
    (place.node.kind = .callExpression ∧ place.node.calleeName?.isSome = true) <| by
    simp only [Place.calls_iff, exists_and_left, Option.isSome_iff_exists]

/-- What a call of the graph says of the place that it stands at. -/
structure CallSite.Describes (site : CallSite) (place : Place) : Prop where
  node : site.node = place.node
  callee : place.Calls site.callee
  arguments : List.Forall₂ (fun argument known => known =
      if argument.unwrapParens.kind.isLiteral then some (Typing.structural argument) else none)
    place.node.callArguments site.arguments
  caller : ∀ name, site.caller = some name ↔ place.CalledFrom name

theorem CallSite.exists_ofPlace? {place : Place} {name : String} (h : place.Calls name) :
    ∃ site, ofPlace? place = some site ∧ site.Describes place := by
  obtain ⟨hkind, hcallee⟩ := Place.calls_iff.1 h
  refine ⟨⟨name, place.node.callArguments.map literalType?, place.node,
    place.enclosingFunctionName?⟩, by simp [ofPlace?, hkind, hcallee], rfl, h, ?_, ?_⟩
  · rw [List.forall₂_map_right_iff, List.forall₂_same]
    exact fun _ _ => rfl
  · exact fun _ => Place.enclosingFunctionName?_eq_some_iff

theorem CallSite.ofPlace?_eq_none {place : Place} (h : ¬∃ name, place.Calls name) :
    ofPlace? place = none := by
  unfold ofPlace?
  split
  · rename_i hkind
    rw [Option.map_eq_none_iff]
    exact Option.eq_none_iff_forall_ne_some.2 fun name hname =>
      h ⟨name, Place.calls_iff.2 ⟨hkind, hname⟩⟩
  · rfl

namespace CallGraph

variable {root : Place} {f g : String}

/-- The graph lists the calls by name in the order in which they stand in the program, each once. -/
theorem sites_describe : List.Forall₂ CallSite.Describes (ofProgram root).sites
    (root.preorder.filter fun place => ∃ name, place.Calls name) := by
  show List.Forall₂ _ (root.preorder.filterMap CallSite.ofPlace?) _
  induction root.preorder with
  | nil => exact .nil
  | cons place places ih =>
    by_cases hcalls : ∃ name, place.Calls name
    · obtain ⟨site, hsite, hdescribes⟩ := CallSite.exists_ofPlace? hcalls.choose_spec
      rw [List.filterMap_cons_some hsite, List.filter_cons_of_pos (by simpa using hcalls)]
      exact .cons hdescribes ih
    · rw [List.filterMap_cons_none (CallSite.ofPlace?_eq_none hcalls),
        List.filter_cons_of_neg (by simpa using hcalls)]
      exact ih

theorem exists_site_iff :
    (∃ site ∈ (ofProgram root).sites, site.callee = g ∧ site.caller = some f) ↔
      ∃ place ∈ root.preorder, place.Calls g ∧ place.CalledFrom f := by
  show (∃ site ∈ root.preorder.filterMap CallSite.ofPlace?, _) ↔ _
  simp only [List.mem_filterMap]
  constructor
  · rintro ⟨site, ⟨place, hplace, hsite⟩, rfl, hcaller⟩
    have hcalls : ∃ name, place.Calls name := by
      by_contra hnone
      simp [CallSite.ofPlace?_eq_none hnone] at hsite
    obtain ⟨described, hdescribed, hdescribes⟩ := CallSite.exists_ofPlace? hcalls.choose_spec
    obtain rfl : described = site := Option.some.inj (hdescribed.symm.trans hsite)
    exact ⟨place, hplace, hdescribes.callee, (hdescribes.caller f).1 hcaller⟩
  · rintro ⟨place, hplace, hcalls, hfrom⟩
    obtain ⟨site, hsite, hdescribes⟩ := CallSite.exists_ofPlace? hcalls
    have hcallee : some site.callee = some g :=
      (Place.calls_iff.1 hdescribes.callee).2.symm.trans (Place.calls_iff.1 hcalls).2
    exact ⟨site, ⟨place, hplace, hsite⟩, Option.some.inj hcallee, (hdescribes.caller f).2 hfrom⟩

theorem mem_callees_iff :
    g ∈ (ofProgram root).callees f ↔
      (ofProgram root).declares f = true ∧ (ofProgram root).declares g = true ∧
        ∃ place ∈ root.preorder, place.Calls g ∧ place.CalledFrom f := by
  rw [callees]
  split
  · rename_i hf
    simp only [Text.mem_ordered, List.mem_filter, List.mem_map, decide_eq_true_eq,
      ← exists_site_iff]
    grind
  · rename_i hf
    simp [hf]

theorem mem_callers_iff :
    f ∈ (ofProgram root).callers g ↔
      (ofProgram root).declares g = true ∧
        ∃ place ∈ root.preorder, place.Calls g ∧ place.CalledFrom f := by
  rw [callers]
  split
  · rename_i hg
    simp only [Text.mem_ordered, List.mem_filterMap, List.mem_filter, decide_eq_true_eq,
      ← exists_site_iff]
    grind
  · rename_i hg
    simp [hg]

/-- In a whole tree the way up from a call ends at a function that the way down has found. -/
theorem declares_of_calledFrom {root : Node} {place : Place}
    (hplace : place ∈ Place.preorder ⟨root, []⟩) (h : place.CalledFrom f) :
    (ofProgram ⟨root, []⟩).declares f = true := by
  obtain ⟨outer, hnamed, -⟩ := h
  exact declares_ofProgram_iff.2
    ⟨outer, Place.mem_preorder_of_encloses hplace hnamed.encloses, hnamed.declares⟩

theorem declares_iff_mem_names {graph : CallGraph} {name : String} :
    graph.declares name = true ↔ name ∈ graph.functions.map (·.name) := by
  simp [declares]

/-- A function of the graph is the first place of the program that declares it. -/
theorem exists_first_place {declared : DeclaredFunction}
    (h : declared ∈ (ofProgram root).functions) :
    ∃ earlier place later, root.preorder = earlier ++ place :: later ∧
      place.Declares declared.name ∧ (∀ other ∈ earlier, ¬other.Declares declared.name) ∧
      declared = .ofPlace declared.name place := by
  obtain ⟨found, hfound⟩ := declares_iff_exists.1
    (declares_iff_mem_names.2 (List.mem_map.2 ⟨declared, h, rfl⟩))
  have hsame : found = declared :=
    eq_of_name_eq (List.mem_of_find?_eq_some hfound) h (by simpa using List.find?_some hfound)
  rw [function?_ofProgram, Option.map_eq_some_iff, hsame] at hfound
  obtain ⟨place, hplace, hof⟩ := hfound
  obtain ⟨hdeclares, earlier, later, hsplit, hearlier⟩ := List.find?_eq_some_iff_append.1 hplace
  exact ⟨earlier, place, later, hsplit, by simpa using hdeclares, by simpa using hearlier,
    hof.symm⟩

/-- The graph of a whole tree has the functions that the tree declares, each as its first place
declares it, and the calls by name in the order of the tree. Its edges are the calls between the
functions, and both of their directions say the same. -/
theorem call_graph_exact (root : Node) :
    let program : Place := ⟨root, []⟩
    let graph := ofProgram program
    let names := graph.functions.map (·.name)
    names.Nodup ∧
      (∀ name, name ∈ names ↔ ∃ place ∈ program.preorder, place.Declares name) ∧
      (∀ declared ∈ graph.functions, ∃ earlier place later,
        program.preorder = earlier ++ place :: later ∧ place.Declares declared.name ∧
          (∀ other ∈ earlier, ¬other.Declares declared.name) ∧
          declared = .ofPlace declared.name place) ∧
      List.Forall₂ CallSite.Describes graph.sites
        (program.preorder.filter fun place => ∃ name, place.Calls name) ∧
      (∀ f g, (g ∈ graph.callees f ↔ f ∈ graph.callers g) ∧
        (f ∈ graph.callers g ↔
          g ∈ names ∧ ∃ place ∈ program.preorder, place.Calls g ∧ place.CalledFrom f)) ∧
      ∀ f g, (g ∈ graph.callees f → g ∈ names) ∧ (f ∈ graph.callers g → f ∈ names) := by
  intro program graph names
  have hcaller : ∀ {f g}, f ∈ graph.callers g → graph.declares f = true := by
    intro f g h
    obtain ⟨-, place, hplace, -, hfrom⟩ := mem_callers_iff.1 h
    exact declares_of_calledFrom hplace hfrom
  refine ⟨DeclaredFunction.nodup_names_foldl (by simp), fun name => ?_,
    fun _ hdeclared => exists_first_place hdeclared, sites_describe, fun f g => ⟨?_, ?_⟩,
    fun f g => ⟨fun h => ?_, fun h => ?_⟩⟩
  · rw [← declares_iff_mem_names, declares_ofProgram_iff]
  · constructor
    · intro h
      exact mem_callers_iff.2 (mem_callees_iff.1 h).2
    · intro h
      exact mem_callees_iff.2 ⟨hcaller h, mem_callers_iff.1 h⟩
  · rw [mem_callers_iff, declares_iff_mem_names]
  · exact declares_iff_mem_names.1 (mem_callees_iff.1 h).2.1
  · exact declares_iff_mem_names.1 (hcaller h)

end CallGraph

end ScriptTypes
