import ScriptTypes.Proofs.Commented.Programs

/-!
# Two parts of a program

A program whose statements are split into two groups. Each group binds names, and the names that are
bound in the one are not written in the other. The program then has the functions and the calls of
both groups, and each group reads no name of the other.

* `Node.boundNames`, `Node.writtenNames`: the names that a group binds and is written with.
* `Node.boundNames_subset`: what is bound is written.
* `Separate`: two groups that have nothing to do with each other.
* `Region.apart`: the region of one of the groups.
* `Separate.functions_whole`, `Separate.sites_whole`: the call graph of the program.
* `CallGraph.PartOf`: what is found in the call graph of the program is found in that of a group.
-/

namespace ScriptTypes

/-! ## Names -/

namespace Node

/-- The names that a node is written with. Identifiers and shorthands stand for their texts;
variables and functions are declared under the texts of their names. -/
def spelled (n : Node) : List String :=
  match n.kind with
  | .identifier | .shorthandProperty | .shorthandPattern => n.text.toList
  | .variableDeclarator =>
    (((n.child? .name).filter (!·.kind.isDestructuring)).bind (·.text)).toList
  | .functionDeclaration | .generatorFunctionDeclaration =>
    ((n.child? .name).bind (·.text)).toList
  | _ => []

/-- The names that the nodes of several trees are written with. -/
def writtenNames (nodes : List Node) : List String := (preorderAll nodes).flatMap spelled

/-- The names that are collected in several trees. -/
def boundNames (nodes : List Node) : List String :=
  ((preorderAll nodes).flatMap Seed.ofNode).map Prod.fst

variable {n c target : Node} {name : String}

theorem mem_spelled_of_identifier (hk : n.kind = .identifier) (htext : n.text = some name) :
    name ∈ n.spelled := by
  simp [spelled, hk, htext]

theorem mem_spelled_of_shorthandProperty (hk : n.kind = .shorthandProperty)
    (htext : n.text = some name) : name ∈ n.spelled := by
  simp [spelled, hk, htext]

theorem mem_spelled_of_shorthandPattern (hk : n.kind = .shorthandPattern)
    (htext : n.text = some name) : name ∈ n.spelled := by
  simp [spelled, hk, htext]

theorem mem_spelled_of_target (hk : n.kind = .variableDeclarator)
    (ht : n.child? .name = some target) (hd : target.kind.isDestructuring = false)
    (hname : target.text = some name) : name ∈ n.spelled := by
  simp [spelled, hk, ht, Option.filter, hd, hname]

theorem mem_spelled_of_declaration (hk : n.kind.isFunctionDeclaration = true)
    (hname : (n.child? .name).bind (·.text) = some name) : name ∈ n.spelled := by
  unfold Kind.isFunctionDeclaration at hk
  split at hk
  · rename_i hkind
    simp [spelled, hkind, hname]
  · rename_i hkind
    simp [spelled, hkind, hname]
  · cases hk

/-- A name that a pattern binds is the text of a node of the pattern. -/
theorem exists_spelled_of_mem_bindings : ∀ {n : Node} {binding : Binding}, binding ∈ n.bindings →
    ∃ m ∈ n.preorder, binding.name ∈ m.spelled := by
  intro n
  induction n using Node.induction with
  | step n ih =>
    intro binding hb
    have hbelow : ∀ c ∈ n.children, binding ∈ c.bindings →
        ∃ m ∈ n.preorder, binding.name ∈ m.spelled := by
      intro c hc hbinding
      obtain ⟨m, hm, hname⟩ := ih c hc hbinding
      exact ⟨m, mem_preorder_trans (mem_preorder_of_mem_children hc) hm, hname⟩
    have hchild : ∀ field, binding ∈ (n.child? field).elim [] bindings →
        ∃ m ∈ n.preorder, binding.name ∈ m.spelled := by
      intro field hbinding
      cases hc : n.child? field with
      | none => simp [hc] at hbinding
      | some c =>
        rw [hc] at hbinding
        exact hbelow c (List.mem_of_find?_eq_some hc) hbinding
    have hname : ∀ {name : String}, name ∈ n.spelled →
        binding ∈ (if name = "" then [] else [(⟨name, n⟩ : Binding)]) →
        ∃ m ∈ n.preorder, binding.name ∈ m.spelled := by
      intro name hspelled hbinding
      split at hbinding
      · cases hbinding
      · rw [List.mem_singleton] at hbinding
        exact ⟨n, mem_preorder_self n, hbinding ▸ hspelled⟩
    rw [bindings_eq] at hb
    split at hb
    · split at hb
      · exact hname (mem_spelled_of_identifier ‹_› ‹_›) hb
      · cases hb
    · split at hb
      · exact hname (mem_spelled_of_shorthandPattern ‹_› ‹_›) hb
      · cases hb
    · exact hchild .value hb
    iterate 2 · exact hchild .left hb
    iterate 3
      · obtain ⟨c, hc, hbinding⟩ := List.mem_flatMap.1 hb
        exact hbelow c (List.mem_filter.1 hc).1 hbinding
    · cases hb

theorem mem_preorder_of_mem_parameters (hc : c ∈ n.parameters) : c ∈ n.preorder := by
  unfold parameters at hc
  split at hc
  · rename_i single hsingle
    rw [List.mem_singleton] at hc
    exact hc ▸ mem_preorder_of_child? hsingle
  · split at hc
    · rename_i list hlist
      exact mem_preorder_trans (mem_preorder_of_child? hlist) (mem_preorder_of_mem_operands hc)
    · cases hc

/-- The name of a parameter is the text of an identifier. -/
theorem exists_spelled_of_mem_params {p : Param} (hp : p ∈ n.params) (hname : p.name = some name) :
    ∃ m ∈ n.preorder, name ∈ m.spelled := by
  obtain ⟨c, hc, rfl⟩ := List.mem_map.1 hp
  have hinside := mem_preorder_of_mem_parameters hc
  have hidentifier : ∀ target : Option Node,
      (target.bind Node.identifierName?).filter (· ≠ "") = some name →
      ∃ m, target = some m ∧ name ∈ m.spelled := by
    intro target htarget
    obtain ⟨m, hm, hidentifier⟩ := Option.bind_eq_some_iff.1 (Option.filter_eq_some_iff.1 htarget).1
    unfold identifierName? at hidentifier
    split at hidentifier
    · exact ⟨m, hm, mem_spelled_of_identifier ‹_› hidentifier⟩
    · cases hidentifier
  unfold Param.ofNode at hname
  dsimp only at hname
  split at hname
  · exact ⟨c, hinside, mem_spelled_of_identifier ‹_› hname⟩
  · split at hname
    · rename_i htarget
      cases hname
      obtain ⟨m, hm, hspelled⟩ := hidentifier _ htarget
      exact ⟨m, mem_preorder_trans hinside (mem_preorder_of_child? hm), hspelled⟩
    · cases hname
  · split at hname
    · rename_i htarget
      cases hname
      obtain ⟨m, hm, hspelled⟩ := hidentifier _ htarget
      refine ⟨m, mem_preorder_trans hinside ?_, hspelled⟩
      exact mem_preorder_of_mem_children (List.mem_of_find?_eq_some hm)
    · cases hname
  · cases hname

/-- The pattern of a parameter stands in the function. -/
theorem mem_preorder_of_pattern {p : Param} (hp : p ∈ n.params) (hc : p.pattern = some c) :
    c ∈ n.preorder := by
  obtain ⟨m, hm, rfl⟩ := List.mem_map.1 hp
  refine mem_preorder_trans (mem_preorder_of_mem_parameters hm) ?_
  unfold Param.ofNode at hc
  dsimp only at hc
  split at hc
  · cases hc
  · split at hc
    · cases hc
    · exact mem_preorder_of_child? hc
  · split at hc
    · cases hc
    · exact mem_preorder_of_mem_children (List.mem_of_find?_eq_some hc)
  · cases hc
    exact mem_preorder_self _

end Node

namespace Seed

variable {n : Node} {seed : Seed}

theorem eq_of_mem_forName {name : Option String} {e : Estimate} (h : seed ∈ forName name e) :
    name = some seed.1 := by
  unfold forName at h
  split at h
  · rw [List.mem_singleton] at h
    rw [h]
  · cases h

theorem eq_of_mem_ofValue {name : Option String} {value : Option Node}
    (h : seed ∈ ofValue name value) : name = some seed.1 := by
  unfold ofValue at h
  split at h
  · exact eq_of_mem_forName h
  · cases h

theorem exists_of_mem_ofPattern {pattern : Option Node} (h : seed ∈ ofPattern pattern) :
    ∃ c, pattern = some c ∧ ∃ m ∈ c.preorder, seed.1 ∈ m.spelled := by
  unfold ofPattern at h
  split at h
  · obtain ⟨binding, hb, rfl⟩ := List.mem_map.1 h
    exact ⟨_, rfl, Node.exists_spelled_of_mem_bindings hb⟩
  · cases h

/-- A name that is declared is written where it is declared. -/
theorem exists_spelled_of_mem_ofNode (h : seed ∈ ofNode n) :
    ∃ m ∈ n.preorder, seed.1 ∈ m.spelled := by
  unfold ofNode at h
  split at h
  · rename_i hk
    unfold ofDeclarator at h
    split at h
    · cases h
    · rename_i target htarget
      split at h
      · obtain ⟨_, ⟨⟩, m, hm, hname⟩ := exists_of_mem_ofPattern h
        exact ⟨m, Node.mem_preorder_trans (Node.mem_preorder_of_child? htarget) hm, hname⟩
      · rename_i hd
        have hname : target.text = some seed.1 :=
          (List.mem_append.1 h).elim eq_of_mem_forName eq_of_mem_ofValue
        exact ⟨n, Node.mem_preorder_self n,
          Node.mem_spelled_of_target hk htarget (by simpa using hd) hname⟩
  · split at h
    · rcases List.mem_append.1 h with h | h
      · split at h
        · exact ⟨n, Node.mem_preorder_self n,
            Node.mem_spelled_of_declaration ‹_› (eq_of_mem_forName h)⟩
        · cases h
      · obtain ⟨p, hp, h⟩ := List.mem_flatMap.1 h
        have hpattern : seed ∈ ofPattern p.pattern → ∃ m ∈ n.preorder, seed.1 ∈ m.spelled := by
          intro h
          obtain ⟨c, hc, m, hm, hname⟩ := exists_of_mem_ofPattern h
          exact ⟨m, Node.mem_preorder_trans (Node.mem_preorder_of_pattern hp hc) hm, hname⟩
        unfold ofParam at h
        split at h
        · rcases List.mem_append.1 h with h | h
          · exact Node.exists_spelled_of_mem_params hp (eq_of_mem_forName h)
          · exact hpattern h
        · rcases List.mem_append.1 h with h | h
          · rcases List.mem_append.1 h with h | h
            · exact Node.exists_spelled_of_mem_params hp (eq_of_mem_forName h)
            · exact hpattern h
          · exact Node.exists_spelled_of_mem_params hp (eq_of_mem_ofValue h)
    · cases h

end Seed

/-- The names that are bound are among those that are written. -/
theorem Node.boundNames_subset (nodes : List Node) : boundNames nodes ⊆ writtenNames nodes := by
  intro name hname
  obtain ⟨seed, hseed, rfl⟩ := List.mem_map.1 hname
  obtain ⟨n, hn, hseed⟩ := List.mem_flatMap.1 hseed
  obtain ⟨m, hm, hspelled⟩ := Seed.exists_spelled_of_mem_ofNode hseed
  exact List.mem_flatMap.2 ⟨m, mem_preorderAll_trans hn hm, hspelled⟩

/-! ## Groups -/

theorem Node.preorderAll_append (nodes others : List Node) :
    preorderAll (nodes ++ others) = preorderAll nodes ++ preorderAll others := by
  simp only [preorderAll_eq_flatMap, List.flatMap_append]

/-- Two groups of trees that have nothing to do with each other: no name that is bound in the one is
written in the other, no name is blank, and no label is shared. -/
structure Separate (nodes others : List Node) : Prop where
  apart : ∀ name ∈ Node.boundNames nodes, name ∉ Node.writtenNames others
  apart' : ∀ name ∈ Node.boundNames others, name ∉ Node.writtenNames nodes
  named : "" ∉ Node.writtenNames nodes
  named' : "" ∉ Node.writtenNames others
  labels : ∀ n ∈ Node.preorderAll nodes, ∀ m ∈ Node.preorderAll others, n.label ≠ m.label

namespace Separate

variable {nodes others : List Node}

/-- The statements of a program whose labels tell its nodes apart. -/
theorem of_nodup {root : Node} (hchildren : root.children = nodes ++ others)
    (hlabels : (root.preorder.map (·.label)).Nodup)
    (hapart : ∀ name ∈ Node.boundNames nodes, name ∉ Node.writtenNames others)
    (hapart' : ∀ name ∈ Node.boundNames others, name ∉ Node.writtenNames nodes)
    (hnamed : "" ∉ Node.writtenNames root.children) : Separate nodes others := by
  rw [hchildren, Node.writtenNames, Node.preorderAll_append, List.flatMap_append,
    List.mem_append, not_or] at hnamed
  rw [Node.preorder_eq, ← Node.preorderAll_eq_flatMap, hchildren, Node.preorderAll_append,
    List.map_cons, List.map_append] at hlabels
  have hdisjoint := (List.nodup_append.1 (List.nodup_cons.1 hlabels).2).2.2
  exact ⟨hapart, hapart', hnamed.1, hnamed.2, fun n hn m hm =>
    hdisjoint _ (List.mem_map_of_mem hn) _ (List.mem_map_of_mem hm)⟩

variable (sep : Separate nodes others)

include sep

theorem symm : Separate others nodes where
  apart := sep.apart'
  apart' := sep.apart
  named := sep.named'
  named' := sep.named
  labels n hn m hm heq := sep.labels m hm n hn heq.symm

theorem not_bound {name : String} (h : name ∈ Node.boundNames nodes) :
    name ∉ Node.boundNames others := fun h' =>
  sep.apart name h (Node.boundNames_subset others h')

end Separate

/-! ## Programs of a group -/

/-- The node with other children. -/
def Node.withChildren (root : Node) (nodes : List Node) : Node := { root with children := nodes }

theorem Node.withChildren_children (root : Node) : root.withChildren root.children = root := by
  cases root
  rfl

/-- The program that has a group of trees below its root, and nothing else. -/
abbrev Node.alone (root : Node) (nodes : List Node) : Place := ⟨root.withChildren nodes, []⟩

section

variable {root : Node} (hroot : root.kind = .program)

theorem Node.preorder_withChildren (root : Node) (nodes : List Node) :
    (root.withChildren nodes).preorder = root.withChildren nodes :: preorderAll nodes := by
  rw [withChildren, preorder]

include hroot

theorem Seed.ofProgram_withChildren (nodes : List Node) :
    ofProgram (root.withChildren nodes) = (Node.preorderAll nodes).flatMap ofNode := by
  have hnone : ofNode (root.withChildren nodes) = [] := by
    simp [ofNode, Node.withChildren, hroot, Kind.isFunction, Kind.isFunctionDeclaration,
      Kind.isFunctionLiteral]
  rw [ofProgram, Node.preorder_withChildren, List.flatMap_cons, hnone, List.nil_append]

theorem TypeMap.mem_names_collect_withChildren {nodes : List Node} {name : String} :
    name ∈ (collect (root.withChildren nodes)).names ↔ name ∈ Node.boundNames nodes := by
  have hempty : name ∉ (Table.empty : TypeMap).names := by simp [Table.mem_names_iff]
  rw [collect, mem_names_plant, or_iff_right hempty, Seed.ofProgram_withChildren hroot,
    Node.boundNames, List.mem_map]

theorem Node.mem_writtenNames {nodes : List Node} {n : Node}
    (hn : n ∈ (root.withChildren nodes).preorder) {name : String} (hname : name ∈ n.spelled) :
    name ∈ writtenNames nodes := by
  rw [preorder_withChildren, List.mem_cons] at hn
  rcases hn with rfl | hn
  · simp [spelled, withChildren, hroot] at hname
  · exact List.mem_flatMap.2 ⟨n, hn, hname⟩

theorem Typing.not_hasBlankName {nodes : List Node} (hnamed : "" ∉ Node.writtenNames nodes) :
    ¬HasBlankName (root.withChildren nodes) := by
  rintro ⟨n, hn, hk | hk, htext⟩
  · exact hnamed (Node.mem_writtenNames hroot hn (Node.mem_spelled_of_identifier hk htext))
  · exact hnamed (Node.mem_writtenNames hroot hn (Node.mem_spelled_of_shorthandPattern hk htext))

end

/-! ## Regions -/

/-- A name that is collected is written somewhere in the tree. -/
theorem TypeMap.exists_spelled_of_mem_collect {root : Node} {name : String}
    (h : name ∈ (collect root).names) : ∃ n ∈ root.preorder, name ∈ n.spelled := by
  obtain ⟨n, hn, seed, hseed, rfl⟩ := mem_names_collect.1 h
  obtain ⟨m, hm, hname⟩ := Seed.exists_spelled_of_mem_ofNode hseed
  exact ⟨m, Node.mem_preorder_trans hn hm, hname⟩

/-- The callee of a call by name is written in the program. -/
theorem CallGraph.exists_spelled_of_mem_sites {program : Place} {site : CallSite}
    (hsite : site ∈ (ofProgram program).sites) :
    ∃ n ∈ program.node.preorder, site.callee ∈ n.spelled := by
  obtain ⟨place, hplace, -, hcallee, -⟩ := CallGraph.exists_place_of_mem_sites hsite
  obtain ⟨c, hc, hidentifier⟩ := Option.bind_eq_some_iff.1 hcallee
  unfold Node.identifierName? at hidentifier
  split at hidentifier
  · refine ⟨c, ?_, Node.mem_spelled_of_identifier ‹_› hidentifier⟩
    exact Node.mem_preorder_trans (Place.node_mem_preorder hplace) (Node.mem_preorder_of_child? hc)
  · cases hidentifier

/-- The region of the nodes of a tree that is not written with certain names: none of these is
looked up. -/
def Typing.Region.apart (root : Node) (foreign : String → Prop)
    (h : ∀ n ∈ root.preorder, ∀ name ∈ n.spelled, ¬foreign name) :
    Region (CallGraph.ofProgram ⟨root, []⟩) :=
  { Region.declared ⟨root, []⟩ with
    read := fun name => ¬foreign name
    read_identifier := fun {n name} hn hk htext =>
      h n hn name (Node.mem_spelled_of_identifier hk htext)
    read_shorthand := fun {n name} hn hk htext =>
      h n hn name (Node.mem_spelled_of_shorthandProperty hk htext)
    read_literal := fun {n f} _ _ hf => by
      have hmem : f ∈ (CallGraph.ofProgram ⟨root, []⟩).functions := List.mem_of_find?_eq_some hf
      have hcollect := TypeMap.mem_collect_of_function hmem
      obtain ⟨m, hm, hname⟩ := TypeMap.exists_spelled_of_mem_collect hcollect
      exact h m hm f.name hname
    read_callee := fun {n c name} hn hc hk htext _ => by
      refine h c.unwrapParens ?_ name (Node.mem_spelled_of_identifier hk htext)
      exact Node.mem_preorder_trans (Node.mem_preorder_trans hn (Node.mem_preorder_of_child? hc))
        (Node.unwrapParens_mem_preorder c)
    read_param := fun {n p name} hn hp hname => by
      obtain ⟨m, hm, hspelled⟩ := Node.exists_spelled_of_mem_params hp hname
      exact h m (Node.mem_preorder_trans hn.1 hm) name hspelled }

/-! ## Call graphs and uses -/

/-- Functions with other names than those that are there already are registered as if these were
not there. -/
theorem DeclaredFunction.foldl_register_append {places : List Place} {found : List DeclaredFunction}
    (h : ∀ place ∈ places, ∀ name, place.functionName? = some name → ∀ f ∈ found, f.name ≠ name)
    (more : List DeclaredFunction) :
    places.foldl register (found ++ more) = found ++ places.foldl register more := by
  induction places generalizing more with
  | nil => rfl
  | cons place places ih =>
    obtain ⟨hfirst, hrest⟩ := List.forall_mem_cons.1 h
    rw [List.foldl_cons, List.foldl_cons, ← ih hrest]
    congr 1
    unfold register
    split
    · rfl
    · rename_i name hname
      have hnew : found.any (·.name = name) = false :=
        List.any_eq_false.2 fun f hf => by simpa using hfirst name hname f hf
      rw [List.any_append, hnew, Bool.false_or]
      split
      · rfl
      · rw [List.append_assoc]

/-- Functions that are looked for in the whole are found in the part, if the rest has none that
fits. -/
def CallGraph.PartOf (part rest whole : CallGraph) : Prop :=
  ∀ p q : DeclaredFunction → Bool, (∀ f g, f.Commented Eq g → q g = p f) →
    (∀ f ∈ rest.functions, p f = false) →
    Option.Rel (DeclaredFunction.Commented Eq) (part.functions.find? p) (whole.functions.find? q)

theorem Place.preorder_withChildren (root : Node) (nodes : List Node) :
    preorder (root.alone nodes) =
      root.alone nodes :: preorderFromAll [root.withChildren nodes] nodes := by
  rw [preorder, preorderFrom_eq, preorderFromAll_eq_flatMap]
  rfl

theorem Place.preorderFromAll_append (above nodes others : List Node) :
    preorderFromAll above (nodes ++ others) =
      preorderFromAll above nodes ++ preorderFromAll above others := by
  simp only [preorderFromAll_eq_flatMap, List.flatMap_append]

section

variable {root : Node} (hroot : root.kind = .program)

include hroot

/-- The places of a group, alone and in a greater program. -/
theorem Place.preorderFromAll_withChildren (nodes all : List Node) :
    Interspersed (·.node.IsRemark) (Place.Commented Eq)
      (preorderFromAll [root.withChildren nodes] nodes)
      (preorderFromAll [root.withChildren all] nodes) := by
  rw [preorderFromAll_eq_flatMap, preorderFromAll_eq_flatMap]
  have hsame : Interspersed (fun _ => False) (· = ·) nodes nodes := .refl fun _ _ => rfl
  refine hsame.flatMap nofun fun n _ n' heq => ?_
  subst heq
  exact preorderFrom_commented (.refl (fun _ => rfl) n) (.cons ⟨rfl, .inl hroot⟩ .nil)

theorem CallGraph.ofProgram_withChildren (nodes : List Node) :
    ofProgram (root.alone nodes) =
      ofPlaces (Place.preorderFromAll [root.withChildren nodes] nodes) := by
  have hfunction : (root.withChildren nodes).kind.isFunction = false := by
    rw [Node.withChildren, hroot]
    rfl
  have hcall : CallSite.ofPlace? (root.alone nodes) = none := by
    simp [CallSite.ofPlace?, Node.withChildren, hroot]
  rw [ofProgram_eq, Place.preorder_withChildren, ofPlaces, ofPlaces, List.filterMap_cons, hcall,
    List.filter_cons, hfunction]
  rfl

theorem Usage.ofProgram_withChildren (nodes : List Node) (types : TypeMap) :
    ofProgram (root.alone nodes) types =
      (Place.preorderFromAll [root.withChildren nodes] nodes).foldl (observe types) .empty := by
  have hskip : observe types .empty (root.alone nodes) = .empty := by
    simp [observe, Node.withChildren, hroot]
  rw [ofProgram, Place.preorder_withChildren, List.foldl_cons, hskip]

/-- The functions of a group, alone and in a greater program. -/
theorem CallGraph.functions_withChildren (nodes all : List Node) :
    List.Forall₂ (DeclaredFunction.Commented Eq)
      (ofProgram (root.alone nodes)).functions
      (ofPlaces (Place.preorderFromAll [root.withChildren all] nodes)).functions := by
  rw [ofProgram_withChildren hroot]
  exact (Place.preorderFromAll_withChildren hroot nodes all).functions

/-- The calls of a group, alone and in a greater program. -/
theorem CallGraph.sites_withChildren (nodes all : List Node) :
    List.Forall₂ (CallSite.Commented Eq) (ofProgram (root.alone nodes)).sites
      (ofPlaces (Place.preorderFromAll [root.withChildren all] nodes)).sites := by
  rw [ofProgram_withChildren hroot]
  exact (Place.preorderFromAll_withChildren hroot nodes all).sites

theorem CallGraph.name_mem_boundNames {nodes : List Node} {f : DeclaredFunction}
    (hf : f ∈ (ofProgram (root.alone nodes)).functions) :
    f.name ∈ Node.boundNames nodes :=
  (TypeMap.mem_names_collect_withChildren hroot).1 (TypeMap.mem_collect_of_function hf)

theorem Place.functionName?_mem_boundNames {nodes all : List Node} {place : Place} {name : String}
    (hplace : place ∈ preorderFromAll [root.withChildren all] nodes)
    (hname : place.functionName? = some name) : name ∈ Node.boundNames nodes := by
  rcases (preorderFromAll_withChildren hroot nodes all).of_mem hplace with hremark | ⟨alone, ha, hp⟩
  · simp [functionName?, hremark.kind, Kind.isFunctionDeclaration, Kind.isFunctionLiteral] at hname
  · rw [hp.functionName?] at hname
    have hinside : alone ∈ preorder (root.alone nodes) := by
      rw [preorder_withChildren]
      exact List.mem_cons_of_mem _ ha
    exact (TypeMap.mem_names_collect_withChildren hroot).1
      (TypeMap.mem_collect_of_functionName? hinside hname)

namespace Separate

variable {nodes others : List Node}

/-- The functions of the whole program are those of the one group, then those of the other. -/
theorem functions_whole (sep : Separate nodes others) :
    (CallGraph.ofProgram (root.alone (nodes ++ others))).functions =
      (CallGraph.ofPlaces
        (Place.preorderFromAll [root.withChildren (nodes ++ others)] nodes)).functions ++
      (CallGraph.ofPlaces
        (Place.preorderFromAll [root.withChildren (nodes ++ others)] others)).functions := by
  rw [CallGraph.ofProgram_withChildren hroot, Place.preorderFromAll_append]
  simp only [CallGraph.ofPlaces, List.filter_append, List.foldl_append]
  rw [← DeclaredFunction.foldl_register_append ?_ [], List.append_nil]
  intro place hplace name hname f hf heq
  have hfunctions := CallGraph.functions_withChildren hroot nodes (nodes ++ others)
  obtain ⟨alone, ha, hcommented⟩ := ((Interspersed.of_forall₂ hfunctions).of_mem hf).resolve_left id
  have hbound : name ∈ Node.boundNames nodes := by
    rw [← heq, hcommented.name]
    exact CallGraph.name_mem_boundNames hroot ha
  exact sep.not_bound hbound
    (Place.functionName?_mem_boundNames hroot (List.mem_filter.1 hplace).1 hname)

/-- The calls of the whole program are those of the one group, then those of the other. -/
theorem sites_whole :
    (CallGraph.ofProgram (root.alone (nodes ++ others))).sites =
      (CallGraph.ofPlaces
        (Place.preorderFromAll [root.withChildren (nodes ++ others)] nodes)).sites ++
      (CallGraph.ofPlaces
        (Place.preorderFromAll [root.withChildren (nodes ++ others)] others)).sites := by
  rw [CallGraph.ofProgram_withChildren hroot, Place.preorderFromAll_append]
  exact List.filterMap_append

theorem rel_find?_whole (sep : Separate nodes others) {p q : DeclaredFunction → Bool}
    (hpq : ∀ f g, f.Commented Eq g → q g = p f) :
    Option.Rel (DeclaredFunction.Commented Eq)
      (((CallGraph.ofProgram (root.alone nodes)).functions.find? p).or
        ((CallGraph.ofProgram (root.alone others)).functions.find? p))
      ((CallGraph.ofProgram (root.alone (nodes ++ others))).functions.find? q) := by
  have hfunctions := List.rel_append
    (CallGraph.functions_withChildren hroot nodes (nodes ++ others))
    (CallGraph.functions_withChildren hroot others (nodes ++ others))
  rw [← List.find?_append, functions_whole hroot sep]
  exact (Interspersed.of_forall₂ hfunctions).find? nofun hpq

theorem partOf_first (sep : Separate nodes others) :
    (CallGraph.ofProgram (root.alone nodes)).PartOf
      (CallGraph.ofProgram (root.alone others))
      (CallGraph.ofProgram (root.alone (nodes ++ others))) := by
  intro p q hpq hrest
  have hfind := rel_find?_whole hroot sep hpq
  have hnone : (CallGraph.ofProgram (root.alone others)).functions.find? p = none :=
    List.find?_eq_none.2 fun f hf => by simp [hrest f hf]
  rw [hnone, Option.or_none] at hfind
  exact hfind

theorem partOf_second (sep : Separate nodes others) :
    (CallGraph.ofProgram (root.alone others)).PartOf
      (CallGraph.ofProgram (root.alone nodes))
      (CallGraph.ofProgram (root.alone (nodes ++ others))) := by
  intro p q hpq hrest
  have hfind := rel_find?_whole hroot sep hpq
  have hnone : (CallGraph.ofProgram (root.alone nodes)).functions.find? p = none :=
    List.find?_eq_none.2 fun f hf => by simp [hrest f hf]
  rw [hnone, Option.none_or] at hfind
  exact hfind

end Separate

end

end ScriptTypes
