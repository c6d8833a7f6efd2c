import ScriptTypes.Proofs.Commented.Trees
import ScriptTypes.Proofs.Destructuring

/-!
# The names of a pattern

Three walks go over a pattern: the one that lists its names, the one that takes a value apart along
it, and the test whether a place binds a name. They agree: the listed names stand one after the
other in the tree, each where a name is bound, and no value is offered to any other name.

* `Place.Binds`: a place spells a listed name.
* `exists_binding_places`: the places of the names, in the order of the tree.
* `Confined names typed action`: all that `action` does is to offer values to some of the names, in
  their order, and to type nodes that satisfy `typed`.
* `bindsInside`, `confined_destructure`: values are offered to listed names only, and only defaults
  are typed on the way.
* `bindings_ordered_complete`: the three walks agree.
-/

namespace ScriptTypes

namespace Node

/-! ## The names of the parts -/

variable {n : Node}

theorem bindings_of_pair (hk : n.kind = .pairPattern) :
    n.bindings = (n.child? .value).elim [] bindings := by
  rw [bindings_eq, hk]

theorem bindings_of_default (hk : n.kind = .assignmentPattern ∨ n.kind = .objectAssignmentPattern) :
    n.bindings = (n.child? .left).elim [] bindings := by
  rcases hk with hk | hk <;> rw [bindings_eq, hk]

theorem bindings_of_operands
    (hk : n.kind = .objectPattern ∨ n.kind = .arrayPattern ∨ n.kind = .restPattern) :
    n.bindings = n.operands.flatMap bindings := by
  rcases hk with hk | hk | hk <;> rw [bindings_eq, hk]

/-- A name is the only one that it lists, unless it is blank. -/
theorem bindings_of_name (hk : n.kind = .identifier ∨ n.kind = .shorthandPattern) :
    n.bindings = ((n.text.filter (· ≠ "")).map (⟨·, n⟩)).toList := by
  obtain ⟨label, kind, field, named, text, children⟩ := n
  cases text with
  | none => rcases hk with rfl | rfl <;> rfl
  | some name =>
    by_cases hname : name = ""
    · rcases hk with rfl | rfl <;> simp [bindings, hname]
    · rcases hk with rfl | rfl <;> simp [bindings, hname, Option.filter_some]

/-- Whatever is listed for a name is the name itself. -/
theorem bindings_name_cases (hk : n.kind = .identifier ∨ n.kind = .shorthandPattern) :
    n.bindings = [] ∨ ∃ name, n.text = some name ∧ name ≠ "" ∧ n.bindings = [⟨name, n⟩] := by
  rw [bindings_of_name hk]
  cases htext : n.text.filter (· ≠ "") with
  | none => exact .inl rfl
  | some name =>
    obtain ⟨htext, hname⟩ := Option.filter_eq_some_iff.1 htext
    exact .inr ⟨name, htext, by simpa using hname, rfl⟩

/-- A node is the default of a target somewhere in a pattern. -/
def HasDefault (n default : Node) : Prop :=
  ∃ target ∈ n.preorder,
    (target.kind = .assignmentPattern ∨ target.kind = .objectAssignmentPattern) ∧
      target.child? .right = some default

theorem HasDefault.of_child {c default : Node} (hc : c ∈ n.children) (h : c.HasDefault default) :
    n.HasDefault default := by
  obtain ⟨target, htarget, hfacts⟩ := h
  exact ⟨target, mem_preorder_trans (mem_preorder_of_mem_children hc) htarget, hfacts⟩

end Node

/-! ## Where the names stand -/

namespace Place

/-- A place spells a listed name: it is that of the listed node, a name with a text. -/
structure Binds (place : Place) (b : Binding) : Prop where
  node : place.node = b.node
  kind : b.node.kind = .identifier ∨ b.node.kind = .shorthandPattern
  text : b.node.text = some b.name
  nonempty : b.name ≠ ""

/-- The names of a list are spelled, in their order, at some of the places, and names are bound
there. -/
def Spelled (all : List Place) (names : List Binding) : Prop :=
  ∃ places : List Place, places.Sublist all ∧
    List.Forall₂ (fun place b => place.Binds b ∧ place.isBinding = true) places names

namespace Spelled

variable {all others : List Place} {names more : List Binding}

theorem nil : Spelled all [] := ⟨[], List.nil_sublist _, .nil⟩

theorem mono (h : Spelled all names) (hall : all.Sublist others) : Spelled others names := by
  obtain ⟨places, hplaces, hbinds⟩ := h
  exact ⟨places, hplaces.trans hall, hbinds⟩

theorem append (h : Spelled all names) (hmore : Spelled others more) :
    Spelled (all ++ others) (names ++ more) := by
  obtain ⟨places, hplaces, hbinds⟩ := h
  obtain ⟨places', hplaces', hbinds'⟩ := hmore
  exact ⟨places ++ places', hplaces.append hplaces', List.rel_append hbinds hbinds'⟩

/-- The names of the child in a field. -/
theorem child {n : Node} {above : List Node} {field : Field}
    (h : ∀ c, n.child? field = some c → Spelled (preorderFrom (n :: above) c) c.bindings) :
    Spelled (preorderFrom above n) ((n.child? field).elim [] Node.bindings) := by
  cases hc : n.child? field with
  | none => exact nil
  | some c =>
    have hmem : c ∈ n.children := List.mem_of_find?_eq_some hc
    refine (h c hc).mono ?_
    rw [preorderFrom_eq above n]
    exact (List.sublist_flatten_of_mem (List.mem_map_of_mem hmem)).cons _

/-- The names of the children that carry meaning, one child after the other. -/
theorem operands {above : List Node} {nodes : List Node}
    (h : ∀ c ∈ nodes, Spelled (preorderFrom above c) c.bindings) :
    Spelled (nodes.flatMap (preorderFrom above))
      ((nodes.filter Node.isOperand).flatMap Node.bindings) := by
  induction nodes with
  | nil => exact nil
  | cons c nodes ih =>
    obtain ⟨hc, hrest⟩ := List.forall_mem_cons.1 h
    rw [List.flatMap_cons]
    by_cases ho : c.isOperand = true
    · rw [List.filter_cons_of_pos ho, List.flatMap_cons]
      exact hc.append (ih hrest)
    · rw [List.filter_cons_of_neg ho]
      exact (ih hrest).mono (List.sublist_append_right _ _)

end Spelled

/-- The names of a pattern are spelled below it, each where a name is bound, provided the pattern
itself stands where a name is bound in case it is a name. By induction on the tree: a pattern binds
names in those children only that the test takes for bound. -/
theorem spelled_bindings (n : Node) : ∀ above : List Node,
    (n.kind = .identifier ∨ n.kind = .shorthandPattern → isBinding ⟨n, above⟩ = true) →
      Spelled (preorderFrom above n) n.bindings := by
  induction n using Node.induction with
  | step n ih =>
    intro above hroot
    by_cases hname : n.kind = .identifier ∨ n.kind = .shorthandPattern
    · rcases Node.bindings_name_cases hname with hnone | ⟨name, htext, hblank, hone⟩
      · rw [hnone]
        exact .nil
      · rw [hone, preorderFrom_eq]
        exact ⟨[⟨n, above⟩], (List.nil_sublist _).cons_cons _,
          .cons ⟨⟨rfl, hname, htext, hblank⟩, hroot hname⟩ .nil⟩
    by_cases hpair : n.kind = .pairPattern
    · rw [Node.bindings_of_pair hpair]
      refine .child fun c hc => ih c (List.mem_of_find?_eq_some hc) (n :: above) fun _ => ?_
      simp [isBinding, parent?, hpair, Node.hasIn, hc]
    by_cases hdefault : n.kind = .assignmentPattern ∨ n.kind = .objectAssignmentPattern
    · rw [Node.bindings_of_default hdefault]
      refine .child fun c hc => ih c (List.mem_of_find?_eq_some hc) (n :: above) fun _ => ?_
      rcases hdefault with hk | hk <;> simp [isBinding, parent?, hk, Node.hasIn, hc]
    by_cases hlist : n.kind = .objectPattern ∨ n.kind = .arrayPattern ∨ n.kind = .restPattern
    · rw [Node.bindings_of_operands hlist, preorderFrom_eq]
      refine (Spelled.operands fun c hc => ih c hc (n :: above) fun _ => ?_).mono
        (List.sublist_cons_self _ _)
      rcases hlist with hk | hk | hk <;> simp [isBinding, parent?, hk]
    · have hnone : n.bindings = [] := by
        rw [Node.bindings_eq]
        split <;> simp_all
      rw [hnone]
      exact .nil

/-- A place where a name is bound is no use of the name. -/
theorem observe_of_isBinding {place : Place} (h : place.isBinding = true) (types : TypeMap)
    (usage : Usage) : Usage.observe types usage place = usage := by
  simp [Usage.observe, h]

end Place

/-- What is matched along a part of a list is matched at increasing positions of the list. -/
theorem exists_positions {α β : Type} {R : α → β → Prop} {all as : List α} {bs : List β}
    (hsub : as.Sublist all) (h : List.Forall₂ R as bs) :
    ∃ positions : List Nat, positions.Pairwise (· < ·) ∧
      List.Forall₂ (fun i b => ∃ a, all[i]? = some a ∧ R a b) positions bs := by
  obtain ⟨indices, rfl, hlt⟩ := List.sublist_eq_map_getElem hsub
  refine ⟨indices.map (·.val), List.pairwise_map.2 hlt, ?_⟩
  rw [List.forall₂_map_left_iff] at h ⊢
  exact h.imp fun i b hR => ⟨all[i], by simp, hR⟩

/-- The places of the names of a pattern, in the order of the tree. A name that is a pattern of its
own stands at the first place; all others stand where a name is bound. -/
theorem exists_binding_places (p : Place) :
    ∃ positions : List Nat, positions.Pairwise (· < ·) ∧
      List.Forall₂ (fun i b => ∃ place, p.preorder[i]? = some place ∧ place.Binds b ∧
        (i ≠ 0 → place.isBinding = true)) positions p.node.bindings := by
  by_cases hname : p.node.kind = .identifier ∨ p.node.kind = .shorthandPattern
  · rcases Node.bindings_name_cases hname with hnone | ⟨name, htext, hblank, hone⟩
    · rw [hnone]
      exact ⟨[], .nil, .nil⟩
    · rw [hone]
      refine ⟨[0], List.pairwise_singleton _ _, .cons ⟨p, ?_, ⟨rfl, hname, htext, hblank⟩, ?_⟩ .nil⟩
      · rw [Place.preorder, Place.preorderFrom_eq]
        rfl
      · exact fun h => absurd rfl h
  · obtain ⟨places, hsub, hbinds⟩ := Place.spelled_bindings p.node p.above fun h => absurd h hname
    obtain ⟨positions, hlt, hall⟩ := exists_positions hsub hbinds
    refine ⟨positions, hlt, hall.imp fun i b h => ?_⟩
    obtain ⟨place, hplace, hb, hbinding⟩ := h
    exact ⟨place, hplace, hb, fun _ => hbinding⟩

namespace Typing

/-! ## What taking a value apart does -/

/-- What is done to a session where a value is taken apart. -/
inductive Effect
  /-- A name is offered an estimate. -/
  | offer (name : String) (estimate : Estimate)
  /-- A node is typed. -/
  | type (node : Node)

namespace Effect

/-- A session after an effect. -/
def apply (scope : Scope) (s : Session) : Effect → Session
  | offer name estimate => (outcome (assign name estimate false) s).2
  | type node => (outcome (infer scope node) s).2

/-- The name that is offered something, unless it is blank. -/
def name? : Effect → Option String
  | offer name _ => if name = "" then none else some name
  | type _ => none

end Effect

section

variable {α β : Type} {scope : Scope} {names more : List String} {typed other : Node → Prop}

/-- From every session, all that a computation does is to offer values to some of the names, in
their order and each at most once, and to type some nodes. Offers to the blank name do not count. -/
def Confined (scope : Scope) (names : List String) (typed : Node → Prop) (action : SessionM α) :
    Prop :=
  ∀ s : Session, ∃ effects : List Effect,
    (outcome action s).2 = effects.foldl (Effect.apply scope) s ∧
      (effects.filterMap Effect.name?).Sublist names ∧
      ∀ node, .type node ∈ effects → typed node

namespace Confined

variable {action : SessionM α} {next : α → SessionM β}

theorem pure (a : α) : Confined scope names typed (pure a) :=
  fun _ => ⟨[], rfl, List.nil_sublist _, by simp⟩

theorem mono (h : Confined scope names typed action) (hnames : names.Sublist more)
    (htyped : ∀ node, typed node → other node) : Confined scope more other action := by
  intro s
  obtain ⟨effects, hs, hn, ht⟩ := h s
  exact ⟨effects, hs, hn.trans hnames, fun node hnode => htyped node (ht node hnode)⟩

/-- What is done one after the other offers values to the names of both. -/
theorem bind (h : Confined scope names typed action)
    (hnext : ∀ a, Confined scope more typed (next a)) :
    Confined scope (names ++ more) typed (action >>= next) := by
  intro s
  obtain ⟨effects, hs, hn, ht⟩ := h s
  obtain ⟨effects', hs', hn', ht'⟩ := hnext (outcome action s).1 (outcome action s).2
  refine ⟨effects ++ effects', ?_, ?_, fun node hnode => ?_⟩
  · rw [outcome_bind, hs', List.foldl_append, hs]
  · rw [List.filterMap_append]
    exact hn.append hn'
  · exact (List.mem_append.1 hnode).elim (ht node) (ht' node)

end Confined

theorem confined_assign {name : String} (estimate : Estimate) (h : name ≠ "" → names = [name]) :
    Confined scope names typed (assign name estimate false) := by
  refine fun s => ⟨[.offer name estimate], rfl, ?_, by simp⟩
  by_cases hblank : name = ""
  · simp [Effect.name?, hblank]
  · simp [Effect.name?, hblank, h hblank]

/-- Only a default is typed for what a target is offered. -/
theorem confined_orDefault (offered : Option Estimate) {default : Option Node}
    (h : ∀ node, default = some node → typed node) :
    Confined scope [] typed (orDefault scope offered default) := by
  cases offered with
  | some estimate => exact .pure _
  | none =>
    cases default with
    | none => exact .pure _
    | some node => exact fun s => ⟨[.type node], rfl, by simp [Effect.name?], by simpa using h node⟩

/-- Binding a target offers values to its own names only, and types its own defaults only. -/
def BindsOwn (scope : Scope) (n : Node) : Prop :=
  ∀ offered, Confined scope (n.bindings.map (·.name)) n.HasDefault (bindTarget scope n offered)

variable {n : Node}

theorem confined_child (field : Field) (hchildren : ∀ c ∈ n.children, BindsOwn scope c)
    (offered : Option Estimate) :
    Confined scope (((n.child? field).elim [] Node.bindings).map (·.name)) n.HasDefault
      ((n.child? field).elim (pure ()) (bindTarget scope · offered)) := by
  cases hc : n.child? field with
  | none => exact .pure ()
  | some c =>
    have hmem : c ∈ n.children := List.mem_of_find?_eq_some hc
    exact (hchildren c hmem offered).mono (.refl _) fun _ => .of_child hmem

theorem confined_bindRest (hk : n.kind = .restPattern)
    (hchildren : ∀ c ∈ n.children, BindsOwn scope c) (offered : Option Estimate) :
    Confined scope (n.bindings.map (·.name)) n.HasDefault (bindRest scope offered n) := by
  rw [bindRest_eq, Node.bindings_of_operands (.inr (.inr hk))]
  cases hc : n.operand? with
  | none => exact .pure ()
  | some c =>
    have hmem : c ∈ n.children := List.mem_of_find?_eq_some hc
    have hoperand : c ∈ n.operands := List.mem_filter.2 ⟨hmem, List.find?_some hc⟩
    refine (hchildren c hmem offered).mono ?_ fun _ => .of_child hmem
    exact (List.sublist_flatten_of_mem (List.mem_map_of_mem hoperand)).map _

end

section

variable {scope : Scope} {c n : Node} {nodes : List Node} {action later : SessionM Unit}

/-- All that a computation does is to bind the names of those nodes of a list that carry meaning,
one node after the other. -/
def BindsOperands (scope : Scope) (nodes : List Node) (action : SessionM Unit) : Prop :=
  Confined scope ((Node.bindingsOfOperands nodes).map (·.name))
    (fun default => ∃ c ∈ nodes, c.HasDefault default) action

/-- A node may be left out. -/
theorem BindsOperands.skip (h : BindsOperands scope nodes later) (c : Node) :
    BindsOperands scope (c :: nodes) later := by
  refine Confined.mono h (List.Sublist.map _ ?_) fun default hd => ?_
  · rw [Node.bindingsOfOperands]
    split
    · exact List.sublist_append_right _ _
    · exact .refl _
  · obtain ⟨d, hmem, hd⟩ := hd
    exact ⟨d, List.mem_cons_of_mem _ hmem, hd⟩

/-- The first node is bound before the others. -/
theorem BindsOperands.first (h : BindsOperands scope nodes later) (ho : c.isOperand = true)
    (hc : Confined scope (c.bindings.map (·.name)) c.HasDefault action) :
    BindsOperands scope (c :: nodes) (action >>= fun _ => later) := by
  have hlater : Confined scope ((Node.bindingsOfOperands nodes).map (·.name))
      (fun default => ∃ d ∈ c :: nodes, d.HasDefault default) later :=
    Confined.mono h (.refl _) fun _ ⟨d, hmem, hd⟩ => ⟨d, List.mem_cons_of_mem _ hmem, hd⟩
  rw [BindsOperands, Node.bindingsOfOperands, if_pos ho, List.map_append]
  exact (hc.mono (.refl _) fun _ hd => ⟨c, List.mem_cons_self, hd⟩).bind fun _ => hlater

/-- Binding a node, or a child of it, offers values to its own names only. -/
structure BindsInside (scope : Scope) (c : Node) : Prop where
  target : BindsOwn scope c
  children : ∀ d ∈ c.children, BindsOwn scope d

theorem bindsOperands_bindMembers (h : ∀ c ∈ nodes, BindsInside scope c) (source : Estimate) :
    BindsOperands scope nodes (bindMembers scope source nodes) := by
  induction nodes with
  | nil => exact .pure ()
  | cons c nodes ih =>
    obtain ⟨hc, hrest⟩ := List.forall_mem_cons.1 h
    have hlater := ih hrest
    unfold bindMembers
    dsimp only
    by_cases ho : c.isOperand = true
    · rw [if_pos ho]
      split
      · rename_i hk
        split
        · refine hlater.first ho ?_
          rw [bindValue_eq, Node.bindings_of_pair hk]
          exact confined_child .value hc.children _
        · exact hlater.skip c
      · split
        · exact hlater.first ho (hc.target _)
        · exact hlater.skip c
      · split
        · exact hlater.first ho (hc.target _)
        · exact hlater.skip c
      · rename_i hk
        exact hlater.first ho (confined_bindRest hk hc.children _)
      · exact hlater.skip c
    · rw [if_neg ho]
      exact hlater.skip c

theorem bindsOperands_bindElements (h : ∀ c ∈ nodes, BindsInside scope c) (source : Estimate) :
    BindsOperands scope nodes (bindElements scope source nodes) := by
  induction nodes with
  | nil => exact .pure ()
  | cons c nodes ih =>
    obtain ⟨hc, hrest⟩ := List.forall_mem_cons.1 h
    have hlater := ih hrest
    unfold bindElements
    dsimp only
    by_cases ho : c.isOperand = true
    · rw [if_pos ho]
      split
      · rename_i hk
        exact hlater.first ho (confined_bindRest hk hc.children _)
      · exact hlater.first ho (hc.target _)
    · rw [if_neg ho]
      exact hlater.skip c

/-- Taking a value apart binds the names of the pattern only, if binding what is inside does. -/
theorem confined_destructure_of (hk : n.kind.isDestructuring = true)
    (h : ∀ c ∈ n.children, BindsInside scope c) (source : Estimate) :
    Confined scope (n.bindings.map (·.name)) n.HasDefault (destructure scope n source) := by
  have hkinds : n.kind = .objectPattern ∨ n.kind = .arrayPattern := by
    unfold Kind.isDestructuring at hk
    split at hk <;> simp_all
  have hoperands : BindsOperands scope n.children (destructure scope n source) := by
    unfold destructure
    split
    · exact bindsOperands_bindMembers h source
    · exact bindsOperands_bindElements h source
  rw [BindsOperands, Node.bindingsOfOperands_eq] at hoperands
  rw [Node.bindings_of_operands (hkinds.imp_right .inl)]
  exact hoperands.mono (.refl _) fun default ⟨c, hc, hd⟩ => hd.of_child hc

/-- An object or array pattern that is a target takes apart what it is offered. -/
theorem bindTarget_destructuring (hk : n.kind.isDestructuring = true) (offered : Option Estimate) :
    bindTarget scope n offered = offered.elim (pure ()) (destructure scope n) := by
  obtain ⟨_, kind, _, _, _, _⟩ := n
  cases kind with
  | objectPattern => exact bindTarget_object scope rfl offered
  | arrayPattern => cases offered <;> simp [bindTarget, destructure]
  | _ => simp [Kind.isDestructuring] at hk

theorem bindTarget_default (hk : n.kind = .assignmentPattern ∨ n.kind = .objectAssignmentPattern)
    (offered : Option Estimate) :
    bindTarget scope n offered = (do
      let offered ← orDefault scope offered (n.child? .right)
      (n.child? .left).elim (pure ()) (bindTarget scope · offered)) := by
  obtain ⟨_, kind, _, _, _, children⟩ := n
  rcases hk with rfl | rfl <;> simp [bindTarget, bindIn_eq, Node.child?]

/-- What is no name, no pattern and no target with a default is not bound. -/
theorem bindTarget_other (hpattern : ¬n.kind.isDestructuring = true)
    (hname : ¬(n.kind = .identifier ∨ n.kind = .shorthandPattern))
    (hdefault : ¬(n.kind = .assignmentPattern ∨ n.kind = .objectAssignmentPattern))
    (offered : Option Estimate) : bindTarget scope n offered = pure () := by
  obtain ⟨_, kind, _, _, _, _⟩ := n
  cases kind with
  | identifier | shorthandPattern => simp at hname
  | assignmentPattern | objectAssignmentPattern => simp at hdefault
  | objectPattern | arrayPattern => simp [Kind.isDestructuring] at hpattern
  | _ => simp [bindTarget]

/-- A name is offered a value itself. -/
theorem bindsOwn_name (hk : n.kind = .identifier ∨ n.kind = .shorthandPattern) :
    BindsOwn scope n := by
  intro offered
  cases offered with
  | none =>
    rw [bindTarget_name_none scope hk]
    exact .pure ()
  | some estimate =>
    cases htext : n.text with
    | none =>
      have hpure : bindTarget scope n (some estimate) = pure () := by
        obtain ⟨_, kind, _, _, text, _⟩ := n
        obtain rfl : text = none := htext
        rcases hk with rfl | rfl <;> simp [bindTarget]
      rw [hpure]
      exact .pure ()
    | some name =>
      rw [bindTarget_name scope hk htext]
      refine confined_assign estimate fun hname => ?_
      simp [Node.bindings_of_name hk, htext, hname]

/-- A target with a default. -/
theorem bindsOwn_default
    (hk : n.kind = .assignmentPattern ∨ n.kind = .objectAssignmentPattern)
    (hchildren : ∀ c ∈ n.children, BindsOwn scope c) : BindsOwn scope n := by
  intro offered
  have hdefault : ∀ default, n.child? .right = some default → n.HasDefault default :=
    fun default hd => ⟨n, n.mem_preorder_self, hk, hd⟩
  rw [bindTarget_default hk, Node.bindings_of_default hk]
  exact (confined_orDefault offered hdefault).bind fun offered =>
    confined_child .left hchildren offered

/-- Binding a target offers values to its own names only. By induction on the tree: the targets
inside a node stand in its children or in the children of these. -/
theorem bindsInside (n : Node) : BindsInside scope n := by
  induction n using Node.induction with
  | step n ih =>
    have hchildren : ∀ c ∈ n.children, BindsOwn scope c := fun c hc => (ih c hc).target
    refine ⟨fun offered => ?_, hchildren⟩
    by_cases hd : n.kind.isDestructuring = true
    · rw [bindTarget_destructuring hd]
      cases offered with
      | none => exact .pure ()
      | some source => exact confined_destructure_of hd ih source
    by_cases hname : n.kind = .identifier ∨ n.kind = .shorthandPattern
    · exact bindsOwn_name hname offered
    by_cases hdefault : n.kind = .assignmentPattern ∨ n.kind = .objectAssignmentPattern
    · exact bindsOwn_default hdefault hchildren offered
    · rw [bindTarget_other hd hname hdefault]
      exact .pure ()

theorem confined_destructure (hk : n.kind.isDestructuring = true) (source : Estimate) :
    Confined scope (n.bindings.map (·.name)) n.HasDefault (destructure scope n source) :=
  confined_destructure_of hk (fun c _ => bindsInside c) source

end

/-- The names of a pattern are spelled by names with a text at increasing places of the tree. All
but the pattern itself stand where a name is bound, so that they are taken for no use. Whatever is
offered, binding the pattern as a target offers values to these names only, and so does taking a
value apart along it: what else is done is to type defaults that stand in the pattern. -/
theorem bindings_ordered_complete (p : Place) :
    (∃ positions : List Nat, positions.Pairwise (· < ·) ∧
      List.Forall₂ (fun i b => ∃ place, p.preorder[i]? = some place ∧ place.Binds b ∧
        (i ≠ 0 → place.isBinding = true ∧
          ∀ types usage, Usage.observe types usage place = usage)) positions p.node.bindings) ∧
    ∀ scope : Scope,
      (∀ offered : Option Estimate,
        Confined scope (p.node.bindings.map (·.name)) p.node.HasDefault
          (bindTarget scope p.node offered)) ∧
      (p.node.kind.isDestructuring = true → ∀ source : Estimate,
        Confined scope (p.node.bindings.map (·.name)) p.node.HasDefault
          (destructure scope p.node source)) := by
  refine ⟨?_, fun scope => ⟨(bindsInside p.node).target, fun hk => confined_destructure hk⟩⟩
  obtain ⟨positions, hlt, hplaces⟩ := exists_binding_places p
  refine ⟨positions, hlt, hplaces.imp fun i b h => ?_⟩
  obtain ⟨place, hplace, hb, hbinding⟩ := h
  exact ⟨place, hplace, hb, fun hi => ⟨hbinding hi, Place.observe_of_isBinding (hbinding hi)⟩⟩

/-- The pattern `{ a: { b }, c = 1, ...[d] }`. -/
def mixedPattern : Node :=
  ⟨0, .objectPattern, none, true, none,
    [⟨1, .pairPattern, none, true, none,
      [⟨2, .propertyIdentifier, some .key, true, some "a", []⟩,
        ⟨3, .objectPattern, some .value, true, none,
          [⟨4, .shorthandPattern, none, true, some "b", []⟩]⟩]⟩,
      ⟨5, .objectAssignmentPattern, none, true, none,
        [⟨6, .shorthandPattern, some .left, true, some "c", []⟩,
          ⟨7, .number, some .right, true, some "1", []⟩]⟩,
      ⟨8, .restPattern, none, true, none,
        [⟨9, .arrayPattern, none, true, none,
          [⟨10, .identifier, none, true, some "d", []⟩]⟩]⟩]⟩

/-- The names of a pattern with a pair, a default and a rest. -/
theorem bindings_ordered_complete_mixed :
    mixedPattern.kind.isDestructuring = true ∧
      mixedPattern.bindings.map (·.name) = ["b", "c", "d"] ∧
      ∀ (scope : Scope) (source : Estimate),
        Confined scope ["b", "c", "d"] mixedPattern.HasDefault
          (destructure scope mixedPattern source) :=
  ⟨rfl, rfl, fun scope => ((bindings_ordered_complete ⟨mixedPattern, []⟩).2 scope).2 rfl⟩

end Typing

end ScriptTypes
