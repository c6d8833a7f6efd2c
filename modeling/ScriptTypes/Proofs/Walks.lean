import Mathlib.Logic.Function.Iterate
import ScriptTypes.Proofs.CallEdges
import ScriptTypes.Proofs.Commented.Trees

/-!
# Walks in preorder

A walk keeps a stack of the places that it still has to enter. It handles the nodes of the tree in
preorder, less those that it does not get to: nodes inside a boundary, and nodes below one whose
handler said to skip them. The return statements of a function are found by such a walk, so what
stands inside the functions nested in it has no influence on them.

* `Walk.turn`: one turn of a walk with a stack.
* `Walk.exists_turns`: the turns come to an end, with the nodes handled that `Walk.handled` lists.
* `Walk.Handles`: the places whose nodes a walk handles.
* `Walk.handled_eq_filter`: a walk is the preorder, less what it does not get to.
* `Node.Refilled`: a tree in which nested functions got other contents.
* `walk_pruned_preorder`: all of this, and what it says of return statements.
-/

namespace ScriptTypes

namespace Walk

variable (walk : Walk)

/-! ## Turn by turn -/

/-- A walk on its way: the places that are still to be entered, the next one on top, and the nodes
handled so far. -/
structure Progress where
  pending : List Place
  handled : List Node

/-- A walk enters the place where it starts, and all others that are no boundary. -/
def Enters (place : Place) : Prop := place.above = [] ∨ walk.isBoundary place.node.kind = false

instance (place : Place) : Decidable (walk.Enters place) := inferInstanceAs (Decidable (_ ∨ _))

/-- One turn of a walk: takes the place on top off the stack. If it is entered, its handler is
called and, unless that says to skip them, its children are put on top, the first one uppermost. -/
def turn : Progress → Progress
  | ⟨[], handled⟩ => ⟨[], handled⟩
  | ⟨place :: pending, handled⟩ =>
    if walk.Enters place then
      { pending := (if walk.skips place.node then []
          else place.node.children.map (⟨·, place.node :: place.above⟩)) ++ pending
        handled := handled ++ if (walk.handler place.node.kind).isSome then [place.node] else [] }
    else ⟨pending, handled⟩

/-- Some turns lead from one state of a walk to another. -/
def Leads (before after : Progress) : Prop := ∃ count, walk.turn^[count] before = after

variable {walk}

theorem Leads.refl (state : Progress) : walk.Leads state state := ⟨0, rfl⟩

theorem Leads.trans {first second third : Progress} (h : walk.Leads first second)
    (h' : walk.Leads second third) : walk.Leads first third := by
  obtain ⟨count, rfl⟩ := h
  obtain ⟨count', rfl⟩ := h'
  exact ⟨count' + count, Function.iterate_add_apply _ _ _ _⟩

theorem Leads.head {first last : Progress} (h : walk.Leads (walk.turn first) last) :
    walk.Leads first last := by
  obtain ⟨count, h⟩ := h
  exact ⟨count + 1, h⟩

variable {place : Place} {pending : List Place} {handled : List Node}

theorem turn_of_not_enters (h : ¬walk.Enters place) :
    walk.turn ⟨place :: pending, handled⟩ = ⟨pending, handled⟩ := by
  rw [turn, if_neg h]

theorem turn_of_enters (h : walk.Enters place) :
    walk.turn ⟨place :: pending, handled⟩ =
      ⟨(if walk.skips place.node then []
        else place.node.children.map (⟨·, place.node :: place.above⟩)) ++ pending,
        handled ++ walk.noting place.node []⟩ := by
  rw [turn, if_pos h, noting]

theorem leads_children {nodes above : List Node}
    (h : ∀ c ∈ nodes, ∀ pending handled,
      walk.Leads ⟨⟨c, above⟩ :: pending, handled⟩ ⟨pending, handled ++ walk.handledBelow c⟩) :
    walk.Leads ⟨nodes.map (⟨·, above⟩) ++ pending, handled⟩
      ⟨pending, handled ++ nodes.flatMap walk.handledBelow⟩ := by
  induction nodes generalizing handled with
  | nil =>
    rw [List.flatMap_nil, List.append_nil]
    exact .refl _
  | cons node nodes ih =>
    obtain ⟨hfirst, hrest⟩ := List.forall_mem_cons.1 h
    rw [List.flatMap_cons, ← List.append_assoc]
    exact (hfirst _ _).trans (ih hrest)

theorem noting_eq_append (node : Node) (others : List Node) :
    walk.noting node others = walk.noting node [] ++ others := by
  unfold noting
  split <;> rfl

/-- A place that is entered is done with when its children are. -/
theorem leads_of_enters (henters : walk.Enters place)
    (h : ∀ c ∈ place.node.children, ∀ pending handled,
      walk.Leads ⟨⟨c, place.node :: place.above⟩ :: pending, handled⟩
        ⟨pending, handled ++ walk.handledBelow c⟩) :
    walk.Leads ⟨place :: pending, handled⟩
      ⟨pending, handled ++ walk.noting place.node
        (if walk.skips place.node then []
          else place.node.children.flatMap walk.handledBelow)⟩ := by
  refine .head ?_
  rw [turn_of_enters henters]
  split
  · exact .refl _
  · rw [noting_eq_append place.node (place.node.children.flatMap _), ← List.append_assoc]
    exact leads_children h

/-- Below the node where a walk starts, the turns handle what `handledBelow` lists. -/
theorem leads_below (node : Node) : ∀ {above : List Node}, above ≠ [] → ∀ pending handled,
    walk.Leads ⟨⟨node, above⟩ :: pending, handled⟩
      ⟨pending, handled ++ walk.handledBelow node⟩ := by
  induction node using Node.induction with
  | step node ih =>
    intro above habove pending handled
    rw [handledBelow_eq]
    split
    · rename_i hboundary
      have hleft : ¬walk.Enters ⟨node, above⟩ := by simp [Enters, habove, hboundary]
      refine .head ?_
      rw [turn_of_not_enters hleft, List.append_nil]
      exact .refl _
    · rename_i hboundary
      have henters : walk.Enters ⟨node, above⟩ := .inr (by simpa using hboundary)
      exact leads_of_enters henters fun c hc => ih c hc (List.cons_ne_nil _ _)

/-- The turns come to an end, and have then handled what `handled` lists. -/
theorem exists_turns (walk : Walk) (root : Node) :
    ∃ count, walk.turn^[count] ⟨[⟨root, []⟩], []⟩ = ⟨[], walk.handled root⟩ := by
  have hwalk : walk.Leads ⟨[⟨root, []⟩], []⟩
      ⟨[], [] ++ walk.noting root
        (if walk.skips root then [] else root.children.flatMap walk.handledBelow)⟩ :=
    leads_of_enters (.inl rfl) fun c _ => leads_below c (List.cons_ne_nil _ _)
  rwa [List.nil_append, ← handledAll_eq_flatMap] at hwalk

/-! ## What a walk gets to -/

variable (walk)

/-- A walk handles the node at a place if it has a handler, the place is entered, and so are all
places around it, with none whose handler says to skip what is below. -/
structure Handles (place : Place) : Prop where
  handler : (walk.handler place.node.kind).isSome = true
  enters : walk.Enters place
  around : ∀ outer : Place, outer.Encloses place →
    walk.Enters outer ∧ walk.skips outer.node = false

/-- Whether a walk gets below some nodes that stand around each other, the nearest first. -/
def opens : List Node → Bool
  | [] => true
  | node :: above => walk.Enters ⟨node, above⟩ && !walk.skips node && opens above

variable {walk}

theorem opens_iff {place : Place} :
    walk.opens place.above = true ↔
      ∀ outer : Place, outer.Encloses place →
        walk.Enters outer ∧ walk.skips outer.node = false := by
  obtain ⟨node, above⟩ := place
  unfold Place.Encloses
  induction above with
  | nil => simp [opens]
  | cons first above ih =>
    simp only [opens, Bool.and_eq_true, decide_eq_true_iff, Bool.not_eq_true', ih]
    constructor
    · rintro ⟨hfirst, habove⟩ outer houter
      rcases List.suffix_cons_iff.1 houter with heq | houter
      · obtain ⟨rfl, rfl⟩ := List.cons_eq_cons.1 heq
        exact hfirst
      · exact habove outer houter
    · intro h
      exact ⟨h ⟨first, above⟩ (List.suffix_refl _),
        fun outer houter => h outer (houter.trans (List.suffix_cons _ _))⟩

theorem handles_iff {place : Place} :
    walk.Handles place ↔ (walk.handler place.node.kind).isSome = true ∧ walk.Enters place ∧
      walk.opens place.above = true :=
  ⟨fun h => ⟨h.handler, h.enters, opens_iff.2 h.around⟩,
    fun h => ⟨h.1, h.2.1, opens_iff.1 h.2.2⟩⟩

instance (place : Place) : Decidable (walk.Handles place) := decidable_of_iff _ handles_iff.symm

/-- Where a walk does not get, it handles nothing. -/
theorem filter_of_not_opens (node : Node) : ∀ {above : List Node}, walk.opens above = false →
    (Place.preorderFrom above node).filter (fun place => walk.Handles place) = [] := by
  induction node using Node.induction with
  | step node ih =>
    intro above h
    have hnode : ¬walk.Handles ⟨node, above⟩ := by simp [handles_iff, h]
    have hbelow : walk.opens (node :: above) = false := by simp [opens, h]
    rw [Place.preorderFrom_eq, List.filter_cons, if_neg (by simpa using hnode),
      List.filter_flatMap, List.flatMap_eq_nil_iff]
    exact fun c hc => ih c hc hbelow

theorem filter_children_of_not_opens {nodes above : List Node} (h : walk.opens above = false) :
    (nodes.flatMap (Place.preorderFrom above)).filter (fun place => walk.Handles place) = [] := by
  rw [List.filter_flatMap, List.flatMap_eq_nil_iff]
  exact fun c _ => filter_of_not_opens c h

/-- A place that is entered, with the walk open to it, contributes its node and what is below. -/
theorem filter_of_enters {node : Node} {above : List Node} (hopen : walk.opens above = true)
    (henters : walk.Enters ⟨node, above⟩)
    (h : walk.opens (node :: above) = true → ∀ c ∈ node.children,
      ((Place.preorderFrom (node :: above) c).filter (fun place => walk.Handles place)).map
        (·.node) = walk.handledBelow c) :
    ((Place.preorderFrom above node).filter (fun place => walk.Handles place)).map (·.node) =
      walk.noting node
        (if walk.skips node then [] else node.children.flatMap walk.handledBelow) := by
  have hnode : walk.Handles ⟨node, above⟩ ↔ (walk.handler node.kind).isSome = true := by
    simp [handles_iff, hopen, henters]
  have hbelow : ((node.children.flatMap (Place.preorderFrom (node :: above))).filter
      (fun place => walk.Handles place)).map (·.node) =
        if walk.skips node then [] else node.children.flatMap walk.handledBelow := by
    by_cases hskips : walk.skips node = true
    · rw [if_pos hskips, filter_children_of_not_opens (by simp [opens, hskips]), List.map_nil]
    · have hchildren := h (by simp [opens, henters, hopen, hskips])
      rw [if_neg hskips, List.filter_flatMap, List.map_flatMap]
      exact List.flatMap_congr hchildren
  rw [Place.preorderFrom_eq, List.filter_cons, noting]
  by_cases hhandler : (walk.handler node.kind).isSome = true
  · rw [if_pos (by simpa [hnode] using hhandler), if_pos hhandler, List.map_cons, hbelow]
  · rw [if_neg (by simpa [hnode] using hhandler), if_neg hhandler, hbelow]

theorem filter_below (node : Node) : ∀ {above : List Node}, above ≠ [] →
    walk.opens above = true →
    ((Place.preorderFrom above node).filter (fun place => walk.Handles place)).map (·.node) =
      walk.handledBelow node := by
  induction node using Node.induction with
  | step node ih =>
    intro above habove hopen
    rw [handledBelow_eq]
    split
    · rename_i hboundary
      have hleft : ¬walk.Enters ⟨node, above⟩ := by simp [Enters, habove, hboundary]
      have hnode : ¬walk.Handles ⟨node, above⟩ := fun h => hleft h.enters
      rw [Place.preorderFrom_eq, List.filter_cons, if_neg (by simpa using hnode),
        filter_children_of_not_opens (by simp [opens, hleft]), List.map_nil]
    · rename_i hboundary
      refine filter_of_enters hopen (.inr (by simpa using hboundary)) fun hbelow c hc => ?_
      exact ih c hc (List.cons_ne_nil _ _) hbelow

/-- A walk handles the nodes of the tree in preorder, less those that it does not get to. -/
theorem handled_eq_filter (walk : Walk) (root : Node) :
    walk.handled root =
      ((Place.preorder ⟨root, []⟩).filter fun place => walk.Handles place).map (·.node) := by
  refine Eq.symm ?_
  rw [handled, handledAll_eq_flatMap]
  exact filter_of_enters rfl (.inl rfl) fun hbelow c _ =>
    filter_below c (List.cons_ne_nil _ _) hbelow

end Walk

/-! ## Return statements -/

namespace Place

/-- A return statement that stands in no function, method or class and in no other return statement
below the first node. -/
def IsOwnReturn (place : Place) : Prop :=
  place.node.kind = .returnStatement ∧
    ∀ n ∈ place.above, n.kind.isFunctionBoundary = false ∧ n.kind ≠ .returnStatement

instance (place : Place) : Decidable place.IsOwnReturn := inferInstanceAs (Decidable (_ ∧ _))

/-- All places of a tree besides the first one stand below that. -/
theorem eq_or_encloses (node : Node) : ∀ {above : List Node} {place : Place},
    place ∈ preorderFrom above node → place = ⟨node, above⟩ ∨ Encloses ⟨node, above⟩ place := by
  induction node using Node.induction with
  | step node ih =>
    intro above place h
    rw [preorderFrom_eq] at h
    rcases List.mem_cons.1 h with rfl | h
    · exact .inl rfl
    · obtain ⟨c, hc, h⟩ := List.mem_flatMap.1 h
      rcases ih c hc h with rfl | h
      · exact .inr (List.suffix_refl _)
      · exact .inr ((List.suffix_cons _ _).trans h)

/-- What is outermost around a place of a tree is the first node. -/
theorem node_eq_of_encloses {root n : Node} {place : Place} (hplace : place ∈ preorder ⟨root, []⟩)
    (h : Encloses ⟨n, []⟩ place) : n = root := by
  unfold Encloses at h
  rcases eq_or_encloses root hplace with rfl | hroot
  · simp at h
  · have hsuffix := List.suffix_of_suffix_length_le h hroot (Nat.le_refl _)
    exact List.singleton_injective (hsuffix.eq_of_length rfl)

variable {place : Place} {body : Node}

/-- The walk through a block finds the return statements of its function. -/
theorem handles_returnWalk_iff (hbody : body.kind = .statementBlock)
    (hplace : place ∈ preorder ⟨body, []⟩) :
    Node.returnWalk.Handles place ↔ place.IsOwnReturn := by
  have hhandler : (Node.returnWalk.handler place.node.kind).isSome = true ↔
      place.node.kind = .returnStatement := by
    by_cases hk : place.node.kind = .returnStatement <;> simp [Node.returnWalk, hk]
  constructor
  · rintro ⟨hk, -, haround⟩
    refine ⟨hhandler.1 hk, fun n hn => ?_⟩
    obtain ⟨inner, outer, hsplit⟩ := List.append_of_mem hn
    have hn : Encloses ⟨n, outer⟩ place := ⟨inner, hsplit.symm⟩
    obtain ⟨henters, hskips⟩ := haround _ hn
    refine ⟨henters.elim (fun htop => ?_) id, by simpa [Node.skips_returnWalk] using hskips⟩
    -- The node where the walk starts is entered in any case, but a block is no boundary.
    obtain rfl : outer = [] := htop
    rw [node_eq_of_encloses hplace hn, hbody]
    rfl
  · rintro ⟨hk, habove⟩
    refine ⟨hhandler.2 hk, .inr (by rw [hk]; rfl), fun outer houter => ?_⟩
    obtain ⟨hboundary, hreturn⟩ := habove outer.node (houter.subset List.mem_cons_self)
    exact ⟨.inr hboundary, by simpa [Node.skips_returnWalk] using hreturn⟩

end Place

namespace Node

theorem returnStatements_eq {body : Node} (hbody : body.kind = .statementBlock) :
    body.returnStatements =
      ((Place.preorder ⟨body, []⟩).filter fun place => place.IsOwnReturn).map (·.node) := by
  have hfilter : (Place.preorder ⟨body, []⟩).filter (fun place => returnWalk.Handles place) =
      (Place.preorder ⟨body, []⟩).filter fun place => place.IsOwnReturn :=
    List.filter_congr fun place hplace =>
      decide_eq_decide.2 (Place.handles_returnWalk_iff hbody hplace)
  rw [returnStatements, Walk.handled_eq_filter, hfilter]

/-! ## Other contents -/

/-- The second tree is the first with other contents in some of its functions, methods and classes,
and accordingly another text of what is around them. -/
inductive Refilled : Node → Node → Prop
  | boundary {label : Nat} {kind : Kind} {field : Option Field} {named : Bool}
    {text text' : Option String} {children children' : List Node}
    (h : kind.isFunctionBoundary = true) :
    Refilled ⟨label, kind, field, named, text, children⟩
      ⟨label, kind, field, named, text', children'⟩
  | around {label : Nat} {kind : Kind} {field : Option Field} {named : Bool}
    {text text' : Option String} {children children' : List Node}
    (hchildren : List.Forall₂ Refilled children children')
    (htext : children = children' → text = text') :
    Refilled ⟨label, kind, field, named, text, children⟩
      ⟨label, kind, field, named, text', children'⟩

namespace Refilled

/-- The contents may be the same as before. -/
theorem refl (n : Node) : n.Refilled n := by
  induction n using Node.induction with
  | step n ih =>
    obtain ⟨label, kind, field, named, text, children⟩ := n
    exact .around (List.forall₂_same.2 ih) fun _ => rfl

variable {n n' : Node} (h : n.Refilled n')

include h

theorem label : n'.label = n.label := by cases h <;> rfl

theorem kind : n'.kind = n.kind := by cases h <;> rfl

theorem field : n'.field = n.field := by cases h <;> rfl

theorem isOperand : n'.isOperand = n.isOperand := by cases h <;> rfl

theorem children (hk : n.kind.isFunctionBoundary = false) :
    List.Forall₂ Refilled n.children n'.children := by
  cases h with
  | boundary hboundary =>
    rw [hboundary] at hk
    cases hk
  | around hchildren _ => exact hchildren

end Refilled

theorem respects_refilled : returnWalk.Respects (fun _ => False) Refilled where
  kind := Refilled.kind
  skips h := by rw [skips_returnWalk, skips_returnWalk, h.kind]
  children h hk := .of_forall₂ (h.children hk)
  unhandled h := h.elim

theorem rel_find?_refilled {nodes nodes' : List Node} {p : Node → Bool}
    (h : List.Forall₂ Refilled nodes nodes') (hp : ∀ n n' : Node, n.Refilled n' → p n' = p n) :
    Option.Rel Refilled (nodes.find? p) (nodes'.find? p) :=
  (Interspersed.of_forall₂ h).find? (fun _ hextra => hextra.elim) hp

/-- What a function returns does not depend on the contents of the functions nested in it. -/
theorem returnExpressions_refilled {f f' : Node}
    (h : List.Forall₂ Refilled f.children f'.children) :
    List.Forall₂ Refilled f.returnExpressions f'.returnExpressions ∧
      f'.hasReturn = f.hasReturn := by
  have hbody : Option.Rel Refilled f.body? f'.body? :=
    rel_find?_refilled h fun n n' hn => by rw [hn.field]
  unfold returnExpressions hasReturn
  rcases rel_cases hbody with ⟨hl, hr⟩ | ⟨body, body', hl, hr, hbody⟩
  · rw [hl, hr]
    exact ⟨.nil, rfl⟩
  · simp only [hl, hr, hbody.kind]
    by_cases hblock : body.kind = .statementBlock
    · have hempty : ∀ {as bs : List Node}, List.Forall₂ Refilled as bs →
          bs.isEmpty = as.isEmpty := fun h => by cases h <;> rfl
      have hstatements : List.Forall₂ Refilled body.returnStatements body'.returnStatements :=
        respects_refilled.handled hbody (.of_forall₂ (hbody.children (by rw [hblock]; rfl)))
      have hreturns := (List.forall₂_and_left _ _).2
        ⟨fun statement hs => (mem_returnStatements hs).2, hstatements⟩
      simp only [if_pos hblock, hempty hstatements, and_true]
      refine List.rel_filterMap ?_ hreturns
      rintro s s' ⟨hk, hs⟩
      exact rel_find?_refilled (hs.children (by rw [hk]; rfl)) fun n n' hn => hn.isOperand
    · simp only [if_neg hblock]
      exact ⟨.cons hbody .nil, trivial⟩

end Node

/-- A walk handles, turn by turn until nothing is left to enter, the nodes of the tree in preorder
that have a handler and that it gets to. The expressions that a function with a block returns are
those of its own return statements, in their order, and whether it returns at all is whether there
is one. Both stay the same when functions nested in it get other contents. -/
theorem walk_pruned_preorder :
    (∀ (walk : Walk) (root : Node),
      (∃ count, walk.turn^[count] ⟨[⟨root, []⟩], []⟩ = ⟨[], walk.handled root⟩) ∧
      walk.handled root =
        ((Place.preorder ⟨root, []⟩).filter fun place => walk.Handles place).map (·.node)) ∧
    (∀ f body : Node, f.body? = some body → body.kind = .statementBlock →
      f.returnExpressions =
        ((Place.preorder ⟨body, []⟩).filter fun place => place.IsOwnReturn).filterMap
          (·.node.operand?) ∧
      (f.hasReturn = true ↔ ∃ place ∈ Place.preorder ⟨body, []⟩, place.IsOwnReturn)) ∧
    ∀ f f' : Node, List.Forall₂ Node.Refilled f.children f'.children →
      List.Forall₂ Node.Refilled f.returnExpressions f'.returnExpressions ∧
      f'.returnExpressions.map (·.label) = f.returnExpressions.map (·.label) ∧
      f'.hasReturn = f.hasReturn := by
  refine ⟨fun walk root => ⟨walk.exists_turns root, walk.handled_eq_filter root⟩,
    fun f body hbody hblock => ⟨?_, ?_⟩, fun f f' h => ?_⟩
  · simp only [Node.returnExpressions, hbody, if_pos hblock, Node.returnStatements_eq hblock]
    exact List.filterMap_map
  · simp [Node.hasReturn, hbody, hblock, Node.returnStatements_eq hblock]
  · obtain ⟨hexpressions, hreturn⟩ := Node.returnExpressions_refilled h
    exact ⟨hexpressions, map_eq_of_forall₂ hexpressions fun _ _ hn => hn.label, hreturn⟩

/-- A function that returns `1`, declares a function, and ends without a value. -/
def outerFunction (contents : List Node) : Node :=
  ⟨0, .functionDeclaration, none, true, none,
    [⟨1, .statementBlock, some .body, true, none,
      [⟨2, .returnStatement, none, true, none,
          [⟨3, .comment, none, true, none, []⟩, ⟨4, .number, none, true, some "1", []⟩]⟩,
        ⟨5, .functionDeclaration, none, true, none, contents⟩,
        ⟨9, .returnStatement, none, true, none, []⟩]⟩]⟩

/-- A block that returns `2`. -/
def returnTwo : Node :=
  ⟨6, .statementBlock, some .body, true, none,
    [⟨7, .returnStatement, none, true, none, [⟨8, .number, none, true, some "2", []⟩]⟩]⟩

/-- What the nested function returns is not returned by the function around it, and without that it
returns the same. -/
theorem walk_pruned_preorder_nested :
    ∃ body, (outerFunction [returnTwo]).body? = some body ∧ body.kind = .statementBlock ∧
      (outerFunction [returnTwo]).returnExpressions = [⟨4, .number, none, true, some "1", []⟩] ∧
      (outerFunction [returnTwo]).hasReturn = true ∧
      List.Forall₂ Node.Refilled (outerFunction [returnTwo]).children (outerFunction []).children ∧
      (outerFunction []).returnExpressions.map (·.label) = [4] := by
  have hrefilled : List.Forall₂ Node.Refilled (outerFunction [returnTwo]).children
      (outerFunction []).children :=
    .cons (.around (.cons (.refl _) (.cons (.boundary rfl) (.cons (.refl _) .nil)))
      fun _ => rfl) .nil
  refine ⟨_, rfl, rfl, ?_, ?_, hrefilled, ?_⟩
  · rw [(walk_pruned_preorder.2.1 _ _ rfl rfl).1]
    rfl
  · rw [(walk_pruned_preorder.2.1 _ _ rfl rfl).2]
    decide
  · rw [(walk_pruned_preorder.2.2 _ _ hrefilled).2.1]
    rfl

end ScriptTypes
