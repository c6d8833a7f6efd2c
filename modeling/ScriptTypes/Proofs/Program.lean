import Mathlib.Data.List.Nodup
import ScriptTypes.Inference
import ScriptTypes.Proofs.Lockstep.Basic
import ScriptTypes.Proofs.Navigation

/-!
# What a program declares

Where the functions of a call graph and the seeds come from, and the regions of a program: the one
that leaves nothing out, and the one that is offered nothing but what the program declares.

* `CallGraph.node_mem_preorder_of_mem_functions`, `CallGraph.node_mem_preorder_of_mem_sites`: the
  functions and the calls of the graph stand in the program.
* `TypeMap.mem_names_collect`: the names that are collected are those of the seeds of the nodes.
* `Region.whole`: the region of all expressions, functions and names.
* `Region.declared`: the region of the nodes of the program and the names that they declare.
-/

namespace ScriptTypes

/-- Each function that is registered stands at one of the places, under the name it is declared
with. -/
theorem DeclaredFunction.exists_place_of_mem_foldl {places : List Place}
    {found : List DeclaredFunction} {f : DeclaredFunction}
    (hf : f ∈ places.foldl register found) :
    f ∈ found ∨ ∃ place ∈ places, place.functionName? = some f.name ∧ f.node = place.node ∧
      f.params = place.node.params := by
  induction places generalizing found with
  | nil => exact .inl hf
  | cons place places ih =>
    rcases ih hf with hfound | ⟨other, hother, hfacts⟩
    · unfold register at hfound
      split at hfound
      · exact .inl hfound
      · rename_i name hname
        split at hfound
        · exact .inl hfound
        · rcases List.mem_append.1 hfound with hold | hnew
          · exact .inl hold
          · rw [List.mem_singleton] at hnew
            subst hnew
            exact .inr ⟨place, by simp, hname, rfl, rfl⟩
    · exact .inr ⟨other, by simp [hother], hfacts⟩

/-- A function of the call graph stands at a place of the program, under the name it is declared
with. -/
theorem CallGraph.exists_place_of_mem {root : Place} {f : DeclaredFunction}
    (hf : f ∈ (CallGraph.ofProgram root).functions) :
    ∃ place ∈ root.preorder, place.node.kind.isFunction = true ∧
      place.functionName? = some f.name ∧ f.node = place.node ∧ f.params = place.node.params := by
  rcases DeclaredFunction.exists_place_of_mem_foldl hf with hnone | ⟨place, hplace, hfacts⟩
  · simp at hnone
  · obtain ⟨hmem, hkind⟩ := List.mem_filter.1 hplace
    exact ⟨place, hmem, hkind, hfacts⟩

/-- A function of the call graph is a function of the program. -/
theorem CallGraph.node_mem_preorder_of_mem_functions {root : Place} {f : DeclaredFunction}
    (hf : f ∈ (CallGraph.ofProgram root).functions) :
    f.node ∈ root.node.preorder ∧ f.node.kind.isFunction = true := by
  obtain ⟨place, hplace, hk, -, hnode, -⟩ := CallGraph.exists_place_of_mem hf
  rw [hnode]
  exact ⟨Place.node_mem_preorder hplace, hk⟩

theorem CallGraph.params_eq_of_mem_functions {root : Place} {f : DeclaredFunction}
    (hf : f ∈ (CallGraph.ofProgram root).functions) : f.params = f.node.params := by
  obtain ⟨place, -, -, -, hnode, hparams⟩ := CallGraph.exists_place_of_mem hf
  rw [hparams, hnode]

theorem CallGraph.declares_of_mem {graph : CallGraph} {f : DeclaredFunction}
    (hf : f ∈ graph.functions) : graph.declares f.name = true :=
  List.any_eq_true.2 ⟨f, hf, decide_eq_true rfl⟩

/-- No two functions are registered under one name. -/
theorem DeclaredFunction.nodup_names_foldl {places : List Place} {found : List DeclaredFunction}
    (h : (found.map (·.name)).Nodup) : ((places.foldl register found).map (·.name)).Nodup := by
  induction places generalizing found with
  | nil => exact h
  | cons place places ih =>
    refine ih ?_
    unfold register
    split
    · exact h
    · rename_i name _
      split
      · exact h
      · rename_i hfree
        rw [List.map_append, List.map_singleton, ← List.concat_eq_append]
        refine List.Nodup.concat (fun hmem => hfree ?_) h
        obtain ⟨f, hf, hname⟩ := List.mem_map.1 hmem
        exact List.any_eq_true.2 ⟨f, hf, decide_eq_true hname⟩

/-- A function of the call graph is known by its name. -/
theorem CallGraph.eq_of_name_eq {root : Place} {f g : DeclaredFunction}
    (hf : f ∈ (CallGraph.ofProgram root).functions)
    (hg : g ∈ (CallGraph.ofProgram root).functions) (h : f.name = g.name) : f = g := by
  have hnodup : ((CallGraph.ofProgram root).functions.map (·.name)).Nodup :=
    DeclaredFunction.nodup_names_foldl (by simp)
  exact List.inj_on_of_nodup_map hnodup hf hg h

/-- A call of the graph is that of a place, with the literals among its arguments typed. -/
theorem CallGraph.exists_place_of_mem_sites {root : Place} {site : CallSite}
    (hsite : site ∈ (CallGraph.ofProgram root).sites) :
    ∃ place ∈ root.preorder, site.node = place.node ∧
      place.node.calleeName? = some site.callee ∧
      site.arguments = place.node.callArguments.map CallSite.literalType? := by
  obtain ⟨place, hplace, hcall⟩ := List.mem_filterMap.1 hsite
  unfold CallSite.ofPlace? at hcall
  split at hcall
  · obtain ⟨callee, hcallee, rfl⟩ := Option.map_eq_some_iff.1 hcall
    exact ⟨place, hplace, rfl, hcallee, rfl⟩
  · cases hcall

/-- A call of the graph stands in the program. -/
theorem CallGraph.node_mem_preorder_of_mem_sites {root : Place} {site : CallSite}
    (hsite : site ∈ (CallGraph.ofProgram root).sites) : site.node ∈ root.node.preorder := by
  obtain ⟨place, hplace, hnode, -⟩ := CallGraph.exists_place_of_mem_sites hsite
  rw [hnode]
  exact Place.node_mem_preorder hplace

/-! ## Seeds -/

theorem Seed.ofNode_declarator {n : Node} (hk : n.kind = .variableDeclarator) :
    ofNode n = ofDeclarator n := if_pos hk

theorem Seed.ofNode_function {n : Node}
    (hk : n.kind.isFunction = true ∨ n.kind = .methodDefinition) : ofNode n = ofFunction n := by
  have hdeclarator : n.kind ≠ .variableDeclarator := by
    intro h
    rw [h] at hk
    simp [Kind.isFunction, Kind.isFunctionLiteral, Kind.isFunctionDeclaration] at hk
  rw [ofNode, if_neg hdeclarator, if_pos hk]

namespace TypeMap

theorem mem_names_plant {types : TypeMap} {seeds : List Seed} {name : String} :
    name ∈ (types.plant seeds).names ↔ name ∈ types.names ∨ ∃ seed ∈ seeds, seed.1 = name := by
  unfold plant
  induction seeds generalizing types with
  | nil => simp
  | cons seed seeds ih =>
    rw [List.foldl_cons, ih, mem_names_assign]
    simp only [List.mem_cons, exists_eq_or_imp]
    rw [or_assoc, or_left_comm, eq_comm]

/-- The names that are collected are those of the seeds of the nodes. -/
theorem mem_names_collect {root : Node} {name : String} :
    name ∈ (collect root).names ↔ ∃ n ∈ root.preorder, ∃ seed ∈ Seed.ofNode n, seed.1 = name := by
  have hempty : name ∉ (Table.empty : TypeMap).names := by simp [Table.mem_names_iff]
  rw [collect, mem_names_plant, or_iff_right hempty]
  simp only [Seed.ofProgram, List.mem_flatMap]
  constructor
  · rintro ⟨seed, ⟨n, hn, hseed⟩, hname⟩
    exact ⟨n, hn, seed, hseed, hname⟩
  · rintro ⟨n, hn, seed, hseed, hname⟩
    exact ⟨seed, ⟨n, hn, hseed⟩, hname⟩

variable {root n target : Node} {name : String}

/-- The name of a variable is collected. -/
theorem mem_collect_of_target (hn : n ∈ root.preorder) (hk : n.kind = .variableDeclarator)
    (ht : n.child? .name = some target) (hd : target.kind.isDestructuring = false)
    (hname : target.text = some name) : name ∈ (collect root).names := by
  refine mem_names_collect.2 ⟨n, hn, (name, Seed.floor), ?_, rfl⟩
  simp [Seed.ofNode, hk, Seed.ofDeclarator, ht, hd, Seed.forName, hname]

/-- The names that the pattern of a declaration binds are collected. -/
theorem mem_collect_of_pattern {binding : Binding} (hn : n ∈ root.preorder)
    (hk : n.kind = .variableDeclarator) (ht : n.child? .name = some target)
    (hd : target.kind.isDestructuring = true) (hb : binding ∈ target.bindings) :
    binding.name ∈ (collect root).names := by
  refine mem_names_collect.2 ⟨n, hn, (binding.name, Seed.floor), ?_, rfl⟩
  rw [Seed.ofNode_declarator hk, Seed.ofDeclarator, ht]
  simp only [hd, if_true, Seed.ofPattern]
  exact List.mem_map_of_mem hb

/-- The seeds of a function are among those of its node. -/
theorem mem_collect_of_ofFunction {seed : Seed} (hn : n ∈ root.preorder)
    (hk : n.kind.isFunction = true) (hseed : seed ∈ Seed.ofFunction n) :
    seed.1 ∈ (collect root).names := by
  refine mem_names_collect.2 ⟨n, hn, seed, ?_, rfl⟩
  rw [Seed.ofNode_function (.inl hk)]
  exact hseed

/-- The named parameters of a function are collected. -/
theorem mem_collect_of_param {p : Param} (hn : n ∈ root.preorder) (hk : n.kind.isFunction = true)
    (hp : p ∈ n.params) (hname : p.name = some name) : name ∈ (collect root).names := by
  obtain ⟨e, he⟩ : ∃ e, (name, e) ∈ Seed.ofParam p := by
    unfold Seed.ofParam
    split
    · exact ⟨Seed.rest, by simp [hname, Seed.forName]⟩
    · exact ⟨Seed.floor, by simp [hname, Seed.forName]⟩
  have hseed : (name, e) ∈ Seed.ofFunction n :=
    List.mem_append_right _ (List.mem_flatMap.2 ⟨p, hp, he⟩)
  exact mem_collect_of_ofFunction hn hk hseed

/-- The name of a function that is declared with one is collected. -/
theorem mem_collect_of_declaration (hn : n ∈ root.preorder)
    (hk : n.kind.isFunctionDeclaration = true)
    (hname : (n.child? .name).bind (·.text) = some name) :
    name ∈ (collect root).names := by
  have hseed : (name, Seed.function) ∈ Seed.ofFunction n := by
    simp [Seed.ofFunction, hk, hname, Seed.forName]
  exact mem_collect_of_ofFunction hn (by simp [Kind.isFunction, hk]) hseed

/-- In a whole tree the names under which functions are declared are collected: their own, or that
of the variable around them. -/
theorem mem_collect_of_functionName? {place : Place} (hplace : place ∈ Place.preorder ⟨root, []⟩)
    (hname : place.functionName? = some name) : name ∈ (collect root).names := by
  unfold Place.functionName? at hname
  split at hname
  · rename_i hdeclaration
    exact mem_collect_of_declaration (Place.node_mem_preorder hplace) hdeclaration hname
  · split at hname
    · split at hname
      · rename_i parent hparent
        split at hname
        · rename_i hdeclarator
          obtain ⟨target, htarget, hidentifier⟩ := Option.bind_eq_some_iff.1 hname
          unfold Node.identifierName? at hidentifier
          split at hidentifier
          · rename_i hk
            have hinside := Place.parent_mem_preorder hplace hparent
            exact mem_collect_of_target hinside hdeclarator htarget (by rw [hk]; rfl) hidentifier
          · simp at hidentifier
        · simp at hname
      · simp at hname
    · simp at hname

/-- In a whole tree the functions of the call graph have names that are collected. -/
theorem mem_collect_of_function {f : DeclaredFunction}
    (hf : f ∈ (CallGraph.ofProgram ⟨root, []⟩).functions) : f.name ∈ (collect root).names := by
  obtain ⟨place, hplace, -, hname, -⟩ := CallGraph.exists_place_of_mem hf
  exact mem_collect_of_functionName? hplace hname

end TypeMap

/-! ## Regions -/

/-- A graph without functions and calls. -/
def CallGraph.empty : CallGraph := ⟨[], []⟩

namespace Typing

/-- The region of all expressions, functions and names. -/
def Region.whole (program : Place) : Region (CallGraph.ofProgram program) where
  typed _ := True
  evaluated _ := True
  bound _ := True
  read _ := True
  offered _ := True
  typed_unwrapParens _ := trivial
  typed_operand _ _ _ := trivial
  typed_child _ _ _ := trivial
  typed_argument _ _ := trivial
  typed_callee _ _ _ := trivial
  typed_return _ _ := trivial
  typed_resolved _ _ := trivial
  evaluated_literal _ _ := trivial
  evaluated_callee _ _ _ := trivial
  evaluated_function _ := trivial
  params_function := @CallGraph.params_eq_of_mem_functions program
  read_identifier _ _ _ := trivial
  read_shorthand _ _ _ := trivial
  read_literal _ _ _ := trivial
  read_callee _ _ _ _ _ := trivial
  read_param _ _ _ := trivial
  offered_param _ _ _ := trivial
  offered_bound _ _ _ := trivial
  typed_default _ _ _ := trivial
  bound_left _ _ _ := trivial
  bound_value _ _ _ := trivial
  bound_operand _ _ _ := trivial

theorem Region.covers_whole (program : Place) (root : Node) :
    (Region.whole program).Covers root where
  call _ _ := trivial
  argument _ _ := trivial
  value _ _ _ _ _ := trivial
  declared _ _ _ _ _ := trivial
  pattern _ _ _ _ := trivial

/-- Whether a name without letters is bound or used somewhere in a tree. -/
def HasBlankName (root : Node) : Prop :=
  ∃ n ∈ root.preorder, (n.kind = .identifier ∨ n.kind = .shorthandPattern) ∧ n.text = some ""

/-- The region of the nodes of a program. Estimates are offered to the names that are collected
only; a pattern may bind a blank name, which is not collected. -/
def Region.declared (program : Place) : Region (CallGraph.ofProgram program) where
  typed n := n ∈ program.node.preorder
  evaluated n := n ∈ program.node.preorder ∧ n.kind.isFunction = true
  bound n := n ∈ program.node.preorder ∧
    ∀ binding ∈ n.bindings, binding.name ∈ (TypeMap.collect program.node).names
  read _ := True
  offered name :=
    name ∈ (TypeMap.collect program.node).names ∨ name = "" ∧ HasBlankName program.node
  typed_unwrapParens hn := Node.mem_preorder_trans hn (Node.unwrapParens_mem_preorder _)
  typed_operand hn _ hc := Node.mem_preorder_trans hn (Node.mem_preorder_of_mem_operands hc)
  typed_child hn _ hc := Node.mem_preorder_trans hn (Node.mem_preorder_of_child? hc)
  typed_argument hn hc := Node.mem_preorder_trans hn (Node.mem_preorder_of_mem_callArguments hc)
  typed_callee hn hc _ := Node.mem_preorder_trans
    (Node.mem_preorder_trans hn (Node.mem_preorder_of_child? hc)) (Node.unwrapParens_mem_preorder _)
  typed_return hn hc :=
    Node.mem_preorder_trans hn.1 (Node.mem_preorder_of_mem_returnExpressions hc)
  typed_resolved hn hc := by
    obtain ⟨call, hcall, hvalue⟩ := Node.mem_resolvedValues hc
    exact Node.mem_preorder_trans hn.1
      (Node.mem_preorder_trans hcall (Node.mem_preorder_of_mem_callArguments hvalue))
  evaluated_literal hn hk := ⟨hn, by simp [Kind.isFunction, hk]⟩
  evaluated_callee hn hc hk := by
    refine ⟨?_, by simp [Kind.isFunction, hk]⟩
    exact Node.mem_preorder_trans (Node.mem_preorder_trans hn (Node.mem_preorder_of_child? hc))
      (Node.unwrapParens_mem_preorder _)
  evaluated_function := @CallGraph.node_mem_preorder_of_mem_functions program
  params_function := @CallGraph.params_eq_of_mem_functions program
  read_identifier _ _ _ := trivial
  read_shorthand _ _ _ := trivial
  read_literal _ _ _ := trivial
  read_callee _ _ _ _ _ := trivial
  read_param _ _ _ := trivial
  offered_param hn hp hname := .inl (TypeMap.mem_collect_of_param hn.1 hn.2 hp hname)
  offered_bound := by
    rintro n name ⟨hn, hbindings⟩ hk htext
    by_cases hname : name = ""
    · subst hname
      exact .inr ⟨rfl, n, hn, hk, htext⟩
    · refine .inl (hbindings ⟨name, n⟩ ?_)
      rw [Node.bindings_eq]
      rcases hk with hk | hk <;> simp [hk, htext, hname]
  typed_default hn _ hc := Node.mem_preorder_trans hn.1 (Node.mem_preorder_of_child? hc)
  bound_left := by
    rintro n c ⟨hn, hbindings⟩ hk hc
    refine ⟨Node.mem_preorder_trans hn (Node.mem_preorder_of_child? hc), fun binding hb => ?_⟩
    apply hbindings
    rw [Node.bindings_eq]
    rcases hk with hk | hk <;> simpa [hk, hc] using hb
  bound_value := by
    rintro n c ⟨hn, hbindings⟩ hk hc
    refine ⟨Node.mem_preorder_trans hn (Node.mem_preorder_of_child? hc), fun binding hb => ?_⟩
    apply hbindings
    rw [Node.bindings_eq]
    simpa [hk, hc] using hb
  bound_operand := by
    rintro n c ⟨hn, hbindings⟩ hk hc
    refine ⟨Node.mem_preorder_trans hn (Node.mem_preorder_of_mem_operands hc), fun binding hb => ?_⟩
    have hparts : binding ∈ n.operands.flatMap Node.bindings := List.mem_flatMap.2 ⟨c, hc, hb⟩
    apply hbindings
    rw [Node.bindings_eq]
    rcases hk with hk | hk | hk <;> simpa only [hk] using hparts

theorem Region.covers_declared (program : Place) :
    (Region.declared program).Covers program.node where
  call hn _ := hn
  argument hsite hc := Node.mem_preorder_trans (CallGraph.node_mem_preorder_of_mem_sites hsite)
    (Node.mem_preorder_of_mem_callArguments hc)
  value hn _ _ hv _ := Node.mem_preorder_trans
    (Node.mem_preorder_trans hn (Node.mem_preorder_of_child? hv)) (Node.unwrapParens_mem_preorder _)
  declared hn hk ht hd hname := .inl (TypeMap.mem_collect_of_target hn hk ht hd hname)
  pattern hn hk ht hd :=
    ⟨Node.mem_preorder_trans hn (Node.mem_preorder_of_child? ht), fun _ hb =>
      TypeMap.mem_collect_of_pattern hn hk ht hd hb⟩

end Typing

end ScriptTypes
