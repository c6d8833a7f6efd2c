import ScriptTypes.Proofs.UnionLaws
import ScriptTypes.Typing.Structural

/-!
# Some confidence

Structural typing is never without confidence: what it cannot tell it calls unknown, at a level
above zero, and what fades on the way is not lost.

* `Estimate.unionOf_pos`: a union is held with some confidence.
* `Typing.typeOf_pos`: so is whatever the rules answer.
* `Typing.structuralWithin_pos`: structural typing has some confidence in each of its answers.
-/

namespace ScriptTypes

theorem Estimate.unknown_pos : .zero < unknown.confidence :=
  Confidence.percent_pos (n := 10) (by decide)

theorem Estimate.unknownCall_pos : .zero < unknownCall.confidence :=
  Confidence.percent_pos (n := 30) (by decide)

theorem Estimate.unionOf_pos (l r : Estimate) : .zero < (l.unionOf r).confidence := by
  have hcollapsed : .zero < collapsed.confidence := Confidence.percent_pos (n := 30) (by decide)
  have hmin : .zero < Confidence.unionMin := Confidence.percent_pos (n := 70) (by decide)
  unfold unionOf
  split
  · exact hcollapsed
  · rename_i hweak
    obtain ⟨hl, hr⟩ := firm_of_not_weak hweak
    have hlowest : .zero < min l.confidence r.confidence := lt_of_lt_of_le hmin (le_min hl hr)
    have hfaded : .zero < min l.confidence r.confidence * .sameUnionDecay :=
      Confidence.mul_pos hlowest (by decide +kernel)
    dsimp only
    split
    · exact hfaded
    · split
      · exact hcollapsed
      · split
        · exact hfaded
        · exact lt_of_lt_of_le hmin (le_max_left _ _)

theorem Operator.binary_pos (operator : String) (l r : Estimate) :
    .zero < (Operator.binary operator l r).confidence := by
  have hresult : Confidence.zero < .operator := Confidence.percent_pos (n := 90) (by decide)
  unfold binary plus
  repeat' split
  · exact Estimate.unionOf_pos l r
  iterate 4 · exact hresult
  · exact Confidence.percent_pos (n := 30) (by decide)
  · exact Estimate.unknownCall_pos

theorem Operator.unary?_pos {operator : String} {e : Estimate} (h : unary? operator = some e) :
    .zero < e.confidence := by
  have hcertain : Confidence.zero < .certain := by decide
  unfold unary? at h
  repeat' split at h
  all_goals cases h
  all_goals exact hcertain

namespace Typing

open Estimate

theorem promiseOf_pos (value : Estimate) : .zero < (promiseOf value).confidence :=
  lt_of_lt_of_le (Confidence.percent_pos (n := 70) (by decide)) (le_max_left _ _)

theorem awaited_pos {e : Estimate} (h : .zero < e.confidence) : .zero < (awaited e).confidence := by
  unfold awaited
  split
  · exact Confidence.mul_pos h (by decide +kernel)
  · exact h

theorem arrayOf_pos (elements : List Estimate) : .zero < (arrayOf elements).confidence := by
  unfold arrayOf
  split
  · exact Confidence.percent_pos (n := 70) (by decide)
  · split
    · exact Confidence.percent_pos (n := 90) (by decide)
    · exact Confidence.percent_pos (n := 80) (by decide)

theorem unknownPromise_pos : .zero < unknownPromise.confidence :=
  Confidence.percent_pos (n := 60) (by decide)

theorem staticProperty?_pos (node : Node) :
    .zero < ((staticProperty? node).getD .unknown).confidence := by
  cases h : staticProperty? node with
  | none => exact unknown_pos
  | some e =>
    unfold staticProperty? at h
    split at h
    · obtain ⟨type, -, rfl⟩ := Option.map_eq_some_iff.1 h
      exact Confidence.percent_pos (n := 90) (by decide)
    · cases h

section

variable {infer : Node → Id Estimate}

theorem staticCall?_pos (call callee : Node) :
    .zero < ((staticCall? infer call callee).run.getD .unknownCall).confidence := by
  have hmember : Confidence.zero < .staticMember := Confidence.percent_pos (n := 90) (by decide)
  unfold staticCall?
  split
  · split
    · split
      · exact unknownPromise_pos
      · exact promiseOf_pos _
    · split
      · exact hmember
      · cases Builtin.staticMethods.lookup _ with
        | none => exact unknownCall_pos
        | some type => exact hmember
  · exact unknownCall_pos

theorem knownCall_pos (call : Node) : .zero < (knownCall infer call).run.confidence := by
  unfold knownCall
  split
  · exact unknownCall_pos
  · split
    · split
      · exact Confidence.percent_pos (n := 80) (by decide)
      · exact unknownCall_pos
    · exact staticCall?_pos _ _
    · exact unknownCall_pos

theorem newObject_pos (node : Node) : .zero < (newObject infer node).run.confidence := by
  unfold newObject promiseConstructor
  split
  · exact Confidence.percent_pos (n := 50) (by decide)
  · split
    · split
      · exact unknownPromise_pos
      · split
        · split
          · exact unknownPromise_pos
          · exact promiseOf_pos _
        · exact unknownPromise_pos
    · split
      · exact Confidence.percent_pos (n := 90) (by decide)
      · exact Confidence.percent_pos (n := 70) (by decide)

/-- What the rules answer is held with some confidence if the types of subexpressions are. -/
theorem typeOf_pos (hi : ∀ n, .zero < (infer n).run.confidence) (node : Node) :
    .zero < ((structuralForms infer).typeOf node).run.confidence := by
  have hinferOr : ∀ child : Option Node, .zero < (inferOr infer child).run.confidence := by
    intro child
    cases child with
    | none => exact unknown_pos
    | some child => exact hi child
  have hcertain : Confidence.zero < .certain := by decide
  unfold Forms.typeOf
  split
  -- The kinds in the order of the rules; literals, of eight kinds, come first.
  iterate 8 · exact hcertain
  · split
    · exact hcertain
    · exact unknown_pos
  · exact arrayOf_pos _
  · exact Confidence.percent_pos (n := 80) (by decide)
  iterate 4 · exact Confidence.percent_pos (n := 90) (by decide)
  · exact knownCall_pos node
  · exact newObject_pos node
  · exact staticProperty?_pos node
  · exact unknown_pos
  · show .zero < (unaryType node).confidence
    unfold unaryType
    cases h : ((node.child? .operator).bind (·.text)).bind Operator.unary? with
    | none => exact unknown_pos
    | some e =>
      obtain ⟨operator, -, hunary⟩ := Option.bind_eq_some_iff.1 h
      exact Operator.unary?_pos hunary
  · exact Confidence.percent_pos (n := 90) (by decide)
  · unfold binaryType
    split
    · exact Operator.binary_pos _ _ _
    · exact unknown_pos
  · unfold ternaryType
    split
    · rw [Id.run_bind, Id.run_bind, Id.run_pure]
      exact Estimate.unionOf_pos _ _
    · exact unknown_pos
  · split
    · exact awaited_pos (hi _)
    · exact unknown_pos
  · exact hinferOr _
  iterate 2 · exact hinferOr _
  · exact unknown_pos

end

/-- Structural typing has some confidence in each of its answers, at whatever depth. -/
theorem structuralWithin_pos (room : Nat) (node : Node) :
    .zero < (structuralWithin room node).run.confidence := by
  induction room generalizing node with
  | zero => exact unknown_pos
  | succ room ih => exact typeOf_pos ih node.unwrapParens

end Typing

end ScriptTypes
