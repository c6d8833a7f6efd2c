import ScriptTypes.Typing.Rules
import ScriptTypes.Syntax.Pattern

/-!
# Staying inside a tree

Whatever is found from a node of a tree (children, operands, arguments, return expressions, the
expression inside parentheses) is a node of the tree again, and so is the parent of a place below
the root.

* `Node.mem_preorder_trans`: the nodes below a node of a tree are nodes of the tree.
* `Place.parent_mem_preorder`: the parent of a place below the root is a node of the tree.
* `Node.bindings_eq`: the names that a pattern binds, from those of its parts.
-/

namespace ScriptTypes

namespace Node

/-! ## Below a node -/

theorem mem_preorder_self (n : Node) : n ∈ n.preorder := by
  rw [preorder_eq]
  exact List.mem_cons_self

mutual

theorem mem_preorder_trans {n m : Node} :
    ∀ {root : Node}, n ∈ root.preorder → m ∈ n.preorder → m ∈ root.preorder
  | ⟨label, kind, field, named, text, children⟩, hn, hm => by
    rw [preorder, List.mem_cons] at hn
    rcases hn with rfl | hn
    · exact hm
    · rw [preorder]
      exact List.mem_cons_of_mem _ (mem_preorderAll_trans hn hm)

theorem mem_preorderAll_trans {n m : Node} :
    ∀ {roots : List Node}, n ∈ preorderAll roots → m ∈ n.preorder → m ∈ preorderAll roots
  | [], hn, _ => by simp [preorderAll] at hn
  | root :: roots, hn, hm => by
    rw [preorderAll, List.mem_append] at hn ⊢
    exact hn.imp (mem_preorder_trans · hm) (mem_preorderAll_trans · hm)

end

variable {root n c : Node}

theorem mem_preorder_of_mem_children (hc : c ∈ n.children) : c ∈ n.preorder := by
  rw [preorder_eq]
  exact List.mem_cons_of_mem _ (List.mem_flatMap.2 ⟨c, hc, mem_preorder_self c⟩)

theorem mem_preorder_of_child? {field : Field} (hc : n.child? field = some c) : c ∈ n.preorder :=
  mem_preorder_of_mem_children (List.mem_of_find?_eq_some hc)

theorem mem_preorder_of_mem_operands (hc : c ∈ n.operands) : c ∈ n.preorder :=
  mem_preorder_of_mem_children (List.mem_filter.1 hc).1

/-- An argument of a call is a child of its list of arguments. -/
theorem mem_callArguments (hc : c ∈ n.callArguments) :
    ∃ list ∈ n.preorder, list.kind = .arguments ∧ c ∈ list.children := by
  unfold callArguments at hc
  split at hc
  · rename_i list hlist
    split at hc
    · exact ⟨list, mem_preorder_of_child? hlist, ‹_›, (List.mem_filter.1 hc).1⟩
    · simp at hc
  · simp at hc

theorem mem_preorder_of_mem_callArguments (hc : c ∈ n.callArguments) : c ∈ n.preorder := by
  obtain ⟨list, hlist, -, hchild⟩ := mem_callArguments hc
  exact mem_preorder_trans hlist (mem_preorder_of_mem_children hchild)

mutual

/-- What stands inside parentheses: none were taken off, or it is a child of parentheses. -/
theorem unwrapParens_eq_or : ∀ n : Node, n.unwrapParens = n ∨
    ∃ parens ∈ n.preorder, parens.kind = .parenthesizedExpression ∧
      n.unwrapParens ∈ parens.children
  | ⟨label, kind, field, named, text, children⟩ => by
    rw [unwrapParens, preorder]
    split
    · rename_i hk
      rcases unwrapFirst_eq_or ⟨label, kind, field, named, text, children⟩ children with h | h | h
      · exact .inl h
      · exact .inr ⟨_, List.mem_cons_self, hk, h⟩
      · obtain ⟨parens, hparens, hfacts⟩ := h
        exact .inr ⟨parens, List.mem_cons_of_mem _ hparens, hfacts⟩
    · exact .inl rfl

theorem unwrapFirst_eq_or (around : Node) : ∀ nodes : List Node,
    unwrapFirst around nodes = around ∨ unwrapFirst around nodes ∈ nodes ∨
      ∃ parens ∈ preorderAll nodes, parens.kind = .parenthesizedExpression ∧
        unwrapFirst around nodes ∈ parens.children
  | [] => .inl rfl
  | node :: nodes => by
    rw [unwrapFirst, preorderAll]
    split
    · rcases unwrapParens_eq_or node with h | ⟨parens, hparens, hfacts⟩
      · rw [h]
        exact .inr (.inl List.mem_cons_self)
      · exact .inr (.inr ⟨parens, List.mem_append_left _ hparens, hfacts⟩)
    · rcases unwrapFirst_eq_or around nodes with h | h | ⟨parens, hparens, hfacts⟩
      · exact .inl h
      · exact .inr (.inl (List.mem_cons_of_mem _ h))
      · exact .inr (.inr ⟨parens, List.mem_append_right _ hparens, hfacts⟩)

end

theorem unwrapParens_mem_preorder (n : Node) : n.unwrapParens ∈ n.preorder := by
  rcases unwrapParens_eq_or n with h | ⟨parens, hparens, -, hchild⟩
  · rw [h]
    exact mem_preorder_self n
  · exact mem_preorder_trans hparens (mem_preorder_of_mem_children hchild)

/-! ## Walks -/

theorem mem_noting {walk : Walk} {others : List Node} (hc : c ∈ walk.noting n others) :
    c = n ∧ (walk.handler n.kind).isSome = true ∨ c ∈ others := by
  unfold Walk.noting at hc
  split at hc
  · rename_i hhandler
    exact (List.mem_cons.1 hc).imp_left fun heq => ⟨heq, hhandler⟩
  · exact .inr hc

mutual

theorem mem_handledBelow {walk : Walk} {c : Node} :
    ∀ {n : Node}, c ∈ walk.handledBelow n → c ∈ n.preorder ∧ (walk.handler c.kind).isSome = true
  | ⟨label, kind, field, named, text, children⟩, hc => by
    rw [Walk.handledBelow] at hc
    rw [preorder]
    split at hc
    · simp at hc
    · rcases mem_noting hc with ⟨rfl, hhandler⟩ | hc
      · exact ⟨List.mem_cons_self, hhandler⟩
      · split at hc
        · simp at hc
        · exact (mem_handledAll hc).imp_left (List.mem_cons_of_mem _)

theorem mem_handledAll {walk : Walk} {c : Node} :
    ∀ {nodes : List Node}, c ∈ walk.handledAll nodes →
      c ∈ preorderAll nodes ∧ (walk.handler c.kind).isSome = true
  | [], hc => by simp [Walk.handledAll] at hc
  | node :: nodes, hc => by
    rw [Walk.handledAll, List.mem_append] at hc
    rw [preorderAll, List.mem_append]
    rcases hc with hc | hc
    · exact (mem_handledBelow hc).imp_left .inl
    · exact (mem_handledAll hc).imp_left .inr

end

/-- A walk handles nodes of the tree that have a handler. -/
theorem mem_handled {walk : Walk} (hc : c ∈ walk.handled n) :
    c ∈ n.preorder ∧ (walk.handler c.kind).isSome = true := by
  rcases mem_noting hc with ⟨rfl, hhandler⟩ | hc
  · exact ⟨mem_preorder_self c, hhandler⟩
  · split at hc
    · simp at hc
    · rw [preorder_eq, ← preorderAll_eq_flatMap]
      exact (mem_handledAll hc).imp_left (List.mem_cons_of_mem _)

theorem mem_returnStatements (hc : c ∈ n.returnStatements) :
    c ∈ n.preorder ∧ c.kind = .returnStatement := by
  obtain ⟨hinside, hhandler⟩ := mem_handled hc
  refine ⟨hinside, ?_⟩
  simp only [returnWalk] at hhandler
  split at hhandler
  · assumption
  · simp at hhandler

/-- An expression that a function may return is its body or the operand of a return statement. -/
theorem mem_returnExpressions (hc : c ∈ n.returnExpressions) :
    n.child? .body = some c ∨
      ∃ statement ∈ n.preorder, statement.kind = .returnStatement ∧ c ∈ statement.children := by
  unfold returnExpressions at hc
  split at hc
  · simp at hc
  · rename_i body hbody
    split at hc
    · obtain ⟨statement, hs, hoperand⟩ := List.mem_filterMap.1 hc
      obtain ⟨hinside, hk⟩ := mem_returnStatements hs
      refine .inr ⟨statement, ?_, hk, List.mem_of_find?_eq_some hoperand⟩
      exact mem_preorder_trans (mem_preorder_of_child? hbody) hinside
    · rw [List.mem_singleton] at hc
      exact .inl (hc ▸ hbody)

theorem mem_preorder_of_mem_returnExpressions (hc : c ∈ n.returnExpressions) : c ∈ n.preorder := by
  rcases mem_returnExpressions hc with hbody | ⟨statement, hs, -, hchild⟩
  · exact mem_preorder_of_child? hbody
  · exact mem_preorder_trans hs (mem_preorder_of_mem_children hchild)

/-- A value that a promise is resolved with is an argument of a call. -/
theorem mem_resolvedValues {name : String} (hc : c ∈ Typing.resolvedValues n name) :
    ∃ call ∈ n.preorder, c ∈ call.callArguments := by
  obtain ⟨call, hcall, hvalue⟩ := List.mem_filterMap.1 hc
  split at hvalue
  · exact ⟨call, hcall, List.mem_of_head? hvalue⟩
  · simp at hvalue

/-! ## Patterns -/

theorem bindingsIn_eq (field : Field) (nodes : List Node) :
    bindingsIn field nodes = (nodes.find? (·.field = some field)).elim [] bindings := by
  induction nodes with
  | nil => rfl
  | cons node nodes ih =>
    by_cases h : node.field = some field <;> simp [bindingsIn, h, ih]

theorem bindingsOfOperands_eq (nodes : List Node) :
    bindingsOfOperands nodes = (nodes.filter isOperand).flatMap bindings := by
  induction nodes with
  | nil => rfl
  | cons node nodes ih =>
    by_cases h : node.isOperand = true <;> simp [bindingsOfOperands, h, ih]

/-- The names that a pattern binds, from those of its parts. -/
theorem bindings_eq (n : Node) :
    n.bindings =
      match n.kind with
      | .identifier | .shorthandPattern =>
        match n.text with
        | some name => if name = "" then [] else [⟨name, n⟩]
        | none => []
      | .pairPattern => (n.child? .value).elim [] bindings
      | .assignmentPattern | .objectAssignmentPattern => (n.child? .left).elim [] bindings
      | .objectPattern | .arrayPattern | .restPattern => n.operands.flatMap bindings
      | _ => [] := by
  obtain ⟨label, kind, field, named, text, children⟩ := n
  cases kind with
  | identifier | shorthandPattern => cases text <;> simp only [bindings]
  | _ => simp only [bindings, bindingsIn_eq, bindingsOfOperands_eq, child?, operands]

end Node

/-! ## Parents -/

namespace Place

theorem preorderFromAll_eq_flatMap (above : List Node) (nodes : List Node) :
    preorderFromAll above nodes = nodes.flatMap (preorderFrom above) := by
  induction nodes with
  | nil => rfl
  | cons node nodes ih => rw [preorderFromAll, ih, List.flatMap_cons]

theorem preorderFrom_eq (above : List Node) (node : Node) :
    preorderFrom above node =
      ⟨node, above⟩ :: node.children.flatMap (preorderFrom (node :: above)) := by
  obtain ⟨_, _, _, _, _, children⟩ := node
  rw [preorderFrom, preorderFromAll_eq_flatMap]

mutual

theorem parent_mem_preorderFrom {place : Place} {parent : Node} (hp : place.parent? = some parent) :
    ∀ {above : List Node} {n : Node}, place ∈ preorderFrom above n →
      place = ⟨n, above⟩ ∨ parent ∈ n.preorder
  | above, ⟨label, kind, field, named, text, children⟩, h => by
    rw [preorderFrom, List.mem_cons] at h
    rw [Node.preorder, List.mem_cons]
    refine h.imp_right fun h => ?_
    exact (parent_mem_preorderFromAll hp h).imp_left fun hhead => by simpa using hhead.symm

theorem parent_mem_preorderFromAll {place : Place} {parent : Node}
    (hp : place.parent? = some parent) :
    ∀ {above : List Node} {nodes : List Node}, place ∈ preorderFromAll above nodes →
      above.head? = some parent ∨ parent ∈ Node.preorderAll nodes
  | above, [], h => by simp [preorderFromAll] at h
  | above, node :: nodes, h => by
    rw [preorderFromAll, List.mem_append] at h
    rw [Node.preorderAll, List.mem_append]
    rcases h with h | h
    · rcases parent_mem_preorderFrom hp h with rfl | h
      · exact .inl hp
      · exact .inr (.inl h)
    · exact (parent_mem_preorderFromAll hp h).imp_right .inr

end

/-- The parent of a place of a whole tree is a node of the tree. -/
theorem parent_mem_preorder {root parent : Node} {place : Place}
    (h : place ∈ preorder ⟨root, []⟩) (hp : place.parent? = some parent) :
    parent ∈ root.preorder := by
  rcases parent_mem_preorderFrom hp h with rfl | h
  · simp [parent?] at hp
  · exact h

theorem node_mem_preorder {root place : Place} (h : place ∈ root.preorder) :
    place.node ∈ root.node.preorder := by
  rw [← map_node_preorder]
  exact List.mem_map_of_mem h

end Place

end ScriptTypes
