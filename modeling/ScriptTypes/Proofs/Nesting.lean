import ScriptTypes.Proofs.Coupling

/-!
# Nested expressions

Structural typing gives up on what is nested too deeply. On trees that are no higher than the limit
nothing is given up: the answer is that of the same rules without a limit. A typer that keeps count
of the nesting finds the count as it was when it is done.

* `Node.height`: the number of nodes on the longest way down a tree.
* `Typing.typeOf_congr`: the rules type an expression by what stands below it.
* `Typing.IsUnbounded`: a typer by the rules, without a limit.
* `Typing.IsCounting`: a typer by the rules that counts how deep it is and has a limit.
* `Typing.limit_unseen`: on trees within the limit all of them give the same answer.
-/

namespace ScriptTypes

/-! ## Heights -/

namespace Node

mutual
/-- The number of nodes on the longest way down. -/
def height : Node → Nat
  | ⟨_, _, _, _, _, children⟩ => heightOfAll children + 1

/-- The greatest height of some trees. -/
def heightOfAll : List Node → Nat
  | [] => 0
  | node :: nodes => max (height node) (heightOfAll nodes)
end

/-- A node stands below another one. -/
def IsBelow (c n : Node) : Prop := ∃ child ∈ n.children, c ∈ child.preorder

variable {n c : Node}

theorem height_le_heightOfAll {nodes : List Node} (hc : c ∈ nodes) :
    c.height ≤ heightOfAll nodes := by
  induction nodes with
  | nil => cases hc
  | cons node nodes ih =>
    rw [heightOfAll]
    rcases List.mem_cons.1 hc with rfl | hc
    · exact Nat.le_max_left _ _
    · exact Nat.le_trans (ih hc) (Nat.le_max_right _ _)

theorem height_lt_of_mem_children (hc : c ∈ n.children) : c.height < n.height := by
  obtain ⟨label, kind, field, named, text, children⟩ := n
  rw [height]
  exact Nat.lt_succ_of_le (height_le_heightOfAll hc)

theorem height_le_of_mem_preorder (hc : c ∈ n.preorder) : c.height ≤ n.height := by
  induction n using Node.induction with
  | step n ih =>
    rw [preorder_eq] at hc
    rcases List.mem_cons.1 hc with rfl | hc
    · exact Nat.le_refl _
    · obtain ⟨child, hchild, hc⟩ := List.mem_flatMap.1 hc
      exact Nat.le_trans (ih child hchild hc) (Nat.le_of_lt (height_lt_of_mem_children hchild))

theorem height_lt_of_isBelow (hc : c.IsBelow n) : c.height < n.height := by
  obtain ⟨child, hchild, hc⟩ := hc
  exact Nat.lt_of_le_of_lt (height_le_of_mem_preorder hc) (height_lt_of_mem_children hchild)

theorem height_unwrapParens_le (n : Node) : n.unwrapParens.height ≤ n.height :=
  height_le_of_mem_preorder n.unwrapParens_mem_preorder

theorem height_pos (n : Node) : 0 < n.height := by
  obtain ⟨label, kind, field, named, text, children⟩ := n
  exact Nat.succ_pos _

/-! ## Below a node -/

theorem isBelow_of_mem_children (hc : c ∈ n.children) : c.IsBelow n := ⟨c, hc, mem_preorder_self c⟩

theorem isBelow_of_child? {field : Field} (hc : n.child? field = some c) : c.IsBelow n :=
  isBelow_of_mem_children (List.mem_of_find?_eq_some hc)

theorem isBelow_of_operand? (hc : n.operand? = some c) : c.IsBelow n :=
  isBelow_of_mem_children (List.mem_of_find?_eq_some hc)

theorem isBelow_of_mem_operands (hc : c ∈ n.operands) : c.IsBelow n :=
  isBelow_of_mem_children (List.mem_filter.1 hc).1

theorem IsBelow.trans {d : Node} (hc : c.IsBelow n) (hd : d ∈ c.preorder) : d.IsBelow n := by
  obtain ⟨child, hchild, hc⟩ := hc
  exact ⟨child, hchild, mem_preorder_trans hc hd⟩

theorem isBelow_of_mem_callArguments (hc : c ∈ n.callArguments) : c.IsBelow n := by
  unfold callArguments at hc
  split at hc
  · rename_i list hlist
    split at hc
    · exact (isBelow_of_child? hlist).trans (mem_preorder_of_mem_operands hc)
    · cases hc
  · cases hc

theorem isBelow_of_mem_resolvedValues {executor : Node} {name : String}
    (hexecutor : executor ∈ n.callArguments) (hc : c ∈ Typing.resolvedValues executor name) :
    c.IsBelow n := by
  obtain ⟨call, hcall, hc⟩ := mem_resolvedValues hc
  have hinside := mem_preorder_trans hcall (mem_preorder_of_mem_callArguments hc)
  exact (isBelow_of_mem_callArguments hexecutor).trans hinside

end Node

namespace Typing

/-! ## Rules go downward -/

section

variable {m : Type → Type} [Monad m] {infer infer' : Node → m Estimate} {n : Node}

theorem mostConfident_congr {nodes : List Node} (h : ∀ c ∈ nodes, infer c = infer' c)
    (best : Estimate) : mostConfident infer best nodes = mostConfident infer' best nodes := by
  induction nodes generalizing best with
  | nil => rfl
  | cons node nodes ih =>
    obtain ⟨hfirst, hrest⟩ := List.forall_mem_cons.1 h
    simp only [mostConfident, hfirst, ih hrest]

theorem spreadElement_congr (h : ∀ c, c.IsBelow n → infer c = infer' c) :
    spreadElement infer n = spreadElement infer' n := by
  unfold spreadElement
  split
  · rfl
  · rw [h _ (Node.isBelow_of_operand? ‹_›)]

theorem elementTypes_congr {nodes : List Node} (h : ∀ c ∈ nodes, infer c = infer' c)
    (hbelow : ∀ node ∈ nodes, ∀ c, c.IsBelow node → infer c = infer' c) :
    elementTypes infer nodes = elementTypes infer' nodes := by
  induction nodes with
  | nil => rfl
  | cons node nodes ih =>
    obtain ⟨hfirst, hrest⟩ := List.forall_mem_cons.1 h
    obtain ⟨hspread, hspreads⟩ := List.forall_mem_cons.1 hbelow
    simp only [elementTypes, hfirst, spreadElement_congr hspread, ih hrest hspreads]

theorem objectShape_congr {nodes : List Node}
    (h : ∀ node ∈ nodes, ∀ c, c.IsBelow node → infer c = infer' c)
    (shape : List (String × Estimate)) :
    objectShape (structuralForms infer) shape nodes =
      objectShape (structuralForms infer') shape nodes := by
  induction nodes generalizing shape with
  | nil => rfl
  | cons node nodes ih =>
    obtain ⟨hfirst, hrest⟩ := List.forall_mem_cons.1 h
    have hvalue : ∀ value, node.child? .value = some value →
        (structuralForms infer).infer value = (structuralForms infer').infer value :=
      fun value hv => hfirst value (Node.isBelow_of_child? hv)
    unfold objectShape
    simp only [ih hrest]
    split
    · split
      · rw [hvalue _ ‹_›]
      · rfl
    · rfl
    · rfl
    · rfl

variable (h : ∀ c, c.IsBelow n → infer c = infer' c)

include h

theorem staticCall?_congr (callee : Node) :
    staticCall? infer n callee = staticCall? infer' n callee := by
  unfold staticCall?
  split
  · split
    · split
      · rfl
      · rename_i value rest hargs
        rw [h value (Node.isBelow_of_mem_callArguments (by rw [hargs]; exact List.mem_cons_self))]
    · rfl
  · rfl

theorem knownCall_congr : knownCall infer n = knownCall infer' n := by
  unfold knownCall
  simp only [staticCall?_congr h]

theorem newObject_congr : newObject infer n = newObject infer' n := by
  have hpromise : promiseConstructor infer n = promiseConstructor infer' n := by
    unfold promiseConstructor
    split
    · rfl
    · rename_i executor hexecutor
      have hvalues : ∀ name best, mostConfident infer best (resolvedValues executor name) =
          mostConfident infer' best (resolvedValues executor name) :=
        fun name best => mostConfident_congr
          (fun c hc =>
            h c (Node.isBelow_of_mem_resolvedValues (List.mem_of_mem_head? hexecutor) hc))
          best
      simp only [hvalues]
  unfold newObject
  rw [hpromise]

theorem binaryType_congr : binaryType infer n = binaryType infer' n := by
  unfold binaryType
  split
  · rw [h _ (Node.isBelow_of_child? ‹n.child? .left = _›),
      h _ (Node.isBelow_of_child? ‹n.child? .right = _›)]
  · rfl

theorem ternaryType_congr : ternaryType infer n = ternaryType infer' n := by
  unfold ternaryType
  split
  · rw [h _ (Node.isBelow_of_child? ‹n.child? .consequence = _›),
      h _ (Node.isBelow_of_child? ‹n.child? .alternative = _›)]
  · rfl

theorem inferOr_congr {child : Option Node} (hchild : ∀ c, child = some c → c.IsBelow n) :
    inferOr infer child = inferOr infer' child := by
  cases child with
  | none => rfl
  | some c => exact h c (hchild c rfl)

/-- The rules type an expression by what stands below it. -/
theorem typeOf_congr : (structuralForms infer).typeOf n = (structuralForms infer').typeOf n := by
  have hoperand : ∀ node ∈ n.operands, ∀ c, c.IsBelow node → infer c = infer' c := by
    intro node hnode c hc
    obtain ⟨child, hchild, hc⟩ := hc
    have hinside := Node.mem_preorder_trans (Node.mem_preorder_of_mem_children hchild) hc
    exact h c ((Node.isBelow_of_mem_operands hnode).trans hinside)
  have helements : elementTypes infer n.operands = elementTypes infer' n.operands :=
    elementTypes_congr (fun c hc => h c (Node.isBelow_of_mem_operands hc)) hoperand
  unfold Forms.typeOf
  split
  -- Most rules look no further than the node itself.
  all_goals try rfl
  · exact congrArg (fun types => do pure (arrayOf (← types))) helements
  · rw [objectShape_congr hoperand]
  · exact knownCall_congr h
  · exact newObject_congr h
  · exact binaryType_congr h
  · exact ternaryType_congr h
  · split
    · exact congrArg (fun e => do pure (awaited (← e))) (h _ (Node.isBelow_of_operand? ‹_›))
    · rfl
  · exact inferOr_congr h fun c hc => Node.isBelow_of_mem_operands (List.mem_of_getLast? hc)
  iterate 2 · exact inferOr_congr h fun c hc => Node.isBelow_of_child? hc

end

/-! ## Without a limit -/

/-- A typer by the rules, without a limit. -/
def IsUnbounded (typer : Node → Id Estimate) : Prop :=
  ∀ n, typer n = (structuralForms typer).typeOf n.unwrapParens

/-- Room for the height of a tree is enough. -/
theorem structuralWithin_eq_of_height_le {room room' : Nat} {n : Node} (h : n.height ≤ room)
    (h' : n.height ≤ room') : structuralWithin room n = structuralWithin room' n := by
  induction room generalizing n room' with
  | zero => exact absurd h (Nat.not_le_of_lt n.height_pos)
  | succ room ih =>
    obtain ⟨room', rfl⟩ : ∃ k, room' = k + 1 := ⟨room' - 1, by have := n.height_pos; omega⟩
    rw [structuralWithin, structuralWithin]
    refine typeOf_congr fun c hc => ?_
    have hlower := Node.height_lt_of_isBelow hc
    have hparens := n.height_unwrapParens_le
    exact ih (by omega) (by omega)

/-- The structural type of an expression, with as much room as it has nodes on its longest way
down. -/
def unbounded (n : Node) : Id Estimate := structuralWithin n.height n

theorem isUnbounded_unbounded : IsUnbounded unbounded := by
  intro n
  obtain ⟨room, hroom⟩ : ∃ k, n.height = k + 1 := ⟨n.height - 1, by have := n.height_pos; omega⟩
  rw [unbounded, hroom, structuralWithin]
  refine typeOf_congr fun c hc => ?_
  have hlower := Node.height_lt_of_isBelow hc
  have hparens := n.height_unwrapParens_le
  exact structuralWithin_eq_of_height_le (by omega) (Nat.le_refl _)

/-- There is no other typer by the rules without a limit. By induction on the height. -/
theorem IsUnbounded.eq_unbounded {typer : Node → Id Estimate} (h : IsUnbounded typer) :
    typer = unbounded := by
  funext n
  induction hn : n.height using Nat.strong_induction_on generalizing n with
  | h height ih =>
    rw [h n, isUnbounded_unbounded n]
    refine typeOf_congr fun c hc => ?_
    have hlower := Node.height_lt_of_isBelow hc
    have hparens := n.height_unwrapParens_le
    exact ih c.height (by omega) c rfl

/-! ## Counting -/

/-- One expression deeper: at the limit it is given up, otherwise it is typed by the rules, and the
count is raised meanwhile. -/
def deeper (typer : Node → StateM Nat Estimate) (n : Node) : StateM Nat Estimate := do
  if maxNesting ≤ (← get) then pure .unknown
  else
    modify (· + 1)
    let e ← (structuralForms typer).typeOf n.unwrapParens
    modify (· - 1)
    pure e

/-- A typer by the rules that counts how deep it is, and gives up at the limit. -/
def IsCounting (typer : Node → StateM Nat Estimate) : Prop := ∀ n, typer n = deeper typer n

/-- Computations that leave a count as it is and give the same answer as ones without a count. -/
def Coupling.counted (count : Nat) : Coupling (StateM Nat) Id where
  holds P x y := x.run count = (y.run, count) ∧ P y.run
  pure ha := ⟨rfl, ha⟩
  bind := by
    rintro α β P P' x y f g ⟨hxy, hy⟩ hf
    obtain ⟨hfg, hg⟩ := hf y.run hy
    refine ⟨?_, hg⟩
    rw [StateT.run_bind, hxy]
    exact hfg

/-- If a typer leaves the count as it is for subexpressions, so do the rules. -/
theorem run_typeOf_counted {typer : Node → StateM Nat Estimate} {room count : Nat}
    (h : ∀ n, (typer n).run count = ((structuralWithin room n).run, count)) (n : Node) :
    ((structuralForms typer).typeOf n).run count =
      (((structuralForms (structuralWithin room)).typeOf n).run, count) := by
  have hself : n.Commented Eq n := .refl (fun _ => rfl) n
  have hi : ∀ {c c' : Node}, c.Commented Eq c' → (Coupling.counted count).holds
      Standard.anything.Meets (typer c) (structuralWithin room c') := by
    intro c c' hc
    obtain ⟨heq, -⟩ := structuralWithin_commented .anything room hc
    exact ⟨by rw [h c, heq], Standard.meets_anything _⟩
  exact (((Coupling.counted count).treats_structuralForms ⟨n, []⟩ hi).typeOf trivial hself).1

theorem run_deeper (typer : Node → StateM Nat Estimate) (n : Node) (count : Nat) :
    (deeper typer n).run count =
      if maxNesting ≤ count then (.unknown, count)
      else
        let after := (((structuralForms typer).typeOf n.unwrapParens).run (count + 1)).run
        (after.1, after.2 - 1) := by
  unfold deeper
  simp only [StateT.run_bind, StateT.run_get, pure_bind]
  split <;> rfl

/-- One expression deeper there is room for one nested expression less. -/
theorem run_deeper_eq {typer : Node → StateM Nat Estimate} {count : Nat}
    (h : count < maxNesting → ∀ n, (typer n).run (count + 1) =
      ((structuralWithin (maxNesting - (count + 1)) n).run, count + 1)) (n : Node) :
    (deeper typer n).run count = ((structuralWithin (maxNesting - count) n).run, count) := by
  rw [run_deeper]
  split
  · rename_i hlimit
    rw [Nat.sub_eq_zero_of_le hlimit]
    rfl
  · have hlt : count < maxNesting := by omega
    rw [run_typeOf_counted (h hlt), show maxNesting - count = maxNesting - (count + 1) + 1 by omega]
    rfl

/-- Structural typing with a count of how deep it is. -/
def counted (n : Node) : StateM Nat Estimate :=
  fun count => ((structuralWithin (maxNesting - count) n).run, count)

theorem isCounting_counted : IsCounting counted := by
  intro n
  refine StateT.ext fun count => ?_
  have hcounted : ∀ c, (counted c).run (count + 1) =
      ((structuralWithin (maxNesting - (count + 1)) c).run, count + 1) := fun _ => rfl
  exact (run_deeper_eq (fun _ => hcounted) n).symm

/-- There is no other typer by the rules that counts. By induction on the room that is left. -/
theorem IsCounting.eq_counted {typer : Node → StateM Nat Estimate} (h : IsCounting typer) :
    typer = counted := by
  have hrun : ∀ room count, maxNesting - count = room → ∀ n,
      (typer n).run count = ((structuralWithin (maxNesting - count) n).run, count) := by
    intro room
    induction room with
    | zero =>
      intro count hroom n
      rw [h n]
      exact run_deeper_eq (fun hlt => by omega) n
    | succ room ih =>
      intro count hroom n
      rw [h n]
      exact run_deeper_eq (fun _ => ih (count + 1) (by omega)) n
  funext n
  exact StateT.ext fun count => hrun _ count rfl n

/-! ## Within the limit -/

/-- There is one typer by the rules without a limit, and one that counts how deep it is and gives up
at the limit. The latter starts with a count of zero and ends with it, and gives the structural
type; on a tree with no more than a hundred nodes on the longest way down so does the former. -/
theorem limit_unseen :
    (∃! typer, IsUnbounded typer) ∧ (∃! typer, IsCounting typer) ∧
    ∀ typer counter, IsUnbounded typer → IsCounting counter → ∀ n,
      ((counter n).run 0).run = (structural n, 0) ∧
      (n.height ≤ 100 → ((counter n).run 0).run = ((typer n).run, 0)) := by
  refine ⟨⟨unbounded, isUnbounded_unbounded, fun _ h => h.eq_unbounded⟩,
    ⟨counted, isCounting_counted, fun _ h => h.eq_counted⟩, fun typer counter ht hc n => ?_⟩
  rw [ht.eq_unbounded, hc.eq_counted]
  have hrun : ((counted n).run 0).run = (structural n, 0) := rfl
  refine ⟨hrun, fun hheight => ?_⟩
  have hroom : structuralWithin maxNesting n = structuralWithin n.height n :=
    structuralWithin_eq_of_height_le hheight (Nat.le_refl _)
  rw [hrun, structural, hroom]
  rfl

/-- Assignments one inside the other around a number. -/
def assignments : Nat → Node
  | 0 => ⟨0, .number, some .right, true, some "1", []⟩
  | depth + 1 => ⟨depth + 1, .assignmentExpression, some .right, true, none, [assignments depth]⟩

theorem height_assignments (depth : Nat) : (assignments depth).height = depth + 1 := by
  induction depth with
  | zero => rfl
  | succ depth ih => simp [assignments, Node.height, Node.heightOfAll, ih]

/-- An assignment takes up room for one expression. -/
theorem structuralWithin_assignments (room depth : Nat) :
    structuralWithin (room + 1) (assignments (depth + 1)) =
      structuralWithin room (assignments depth) := by
  have hfield : (assignments depth).field = some .right := by cases depth <;> rfl
  have hright : (assignments (depth + 1)).child? .right = some (assignments depth) := by
    simp [Node.child?, assignments, hfield]
  show inferOr (structuralWithin room) ((assignments (depth + 1)).child? .right) = _
  rw [hright]
  rfl

theorem structuralWithin_assignments_add (room depth : Nat) :
    structuralWithin (room + depth) (assignments depth) =
      structuralWithin room (assignments 0) := by
  induction depth with
  | zero => rfl
  | succ depth ih => rw [← Nat.add_assoc, structuralWithin_assignments, ih]

/-- A hundred expressions one inside the other are typed; with one more the innermost is given
up. -/
theorem limit_unseen_assignments :
    (assignments 99).height = 100 ∧
    ((counted (assignments 99)).run 0).run = ((unbounded (assignments 99)).run, 0) ∧
    (unbounded (assignments 99)).run = .of .number .one ∧
    (assignments 100).height = 101 ∧
    ((counted (assignments 100)).run 0).run = (.of .any (.percent 10), 0) ∧
    (unbounded (assignments 100)).run = .of .number .one := by
  have hlimit := limit_unseen.2.2 unbounded counted isUnbounded_unbounded isCounting_counted
  have hunbounded : ∀ depth, (unbounded (assignments depth)).run = .of .number .one := by
    intro depth
    rw [unbounded, height_assignments, Nat.add_comm, structuralWithin_assignments_add]
    rfl
  have hheight := height_assignments 99
  refine ⟨hheight, (hlimit _).2 (Nat.le_of_eq hheight), hunbounded 99, height_assignments 100, ?_,
    hunbounded 100⟩
  rw [(hlimit _).1, structural, show maxNesting = 0 + 100 from rfl,
    structuralWithin_assignments_add]
  rfl

end Typing

end ScriptTypes
