import ScriptTypes.Proofs.Names
import ScriptTypes.Proofs.Lockstep.Resolution
import ScriptTypes.Proofs.Settling

/-!
# Evidence against the unknown

The uses of a name are folded in last in a round. Most of them say directly what the name is, and
what they say counts for 0.8, or for 0.7 if they say both number and string. They decide unless the
name is held as surely already, and it may be held so for nothing in particular: an element is taken
out of a container with the confidence of the container, whatever is known of its elements.

* `Usage.Direct`, `Usage.evidence`: uses that say directly what a name is, and what they say.
* `Usage.withUses_of_lt`, `Usage.withUses_of_le`: direct evidence decides below its level, and only
  there.
* `Estimate.unknowns`: what the rules answer of their own accord where they know nothing.
* `evidence_decides_below_its_level`: after a round a name with direct evidence is held at least at
  the level of the evidence, and is unknown only if it was held so as surely before.
* `mixed_element_stays_unknown`: an element of a mixed array that is used as a number.
-/

namespace ScriptTypes

/-- What the rules answer of their own accord where they know nothing: of a name that was only
collected, of a form that says nothing, of a call, of a union of too many types, and of a sum. -/
def Estimate.unknowns : List Estimate :=
  [Seed.floor, .unknown, .unknownCall, .collapsed, .of .any .ambiguousPlus]

namespace Usage

/-! ## Direct evidence -/

/-- Whether uses say directly what a name is. A sum alone does not. -/
def Direct (tags : List UsageTag) : Prop :=
  .array ∈ tags ∨ .boolean ∈ tags ∨ .string ∈ tags ∨ .number ∈ tags

/-- What uses say that are direct. -/
def evidence (tags : List UsageTag) : Estimate :=
  if .array ∈ tags then .of (.array .any) (.percent 80)
  else if .boolean ∈ tags then .of .boolean (.percent 80)
  else if .number ∈ tags then
    .of .number (if .string ∈ tags then .percent 70 else .percent 80)
  else .of .string (.percent 80)

variable {tags : List UsageTag}

/-- Direct evidence does not depend on what is held of the name. -/
theorem candidate?_of_direct (h : Direct tags) (current : Option Estimate) :
    candidate? tags current = some (evidence tags) := by
  unfold candidate? evidence
  by_cases harray : .array ∈ tags
  · simp only [harray, if_true]
    rfl
  by_cases hboolean : .boolean ∈ tags
  · simp only [harray, hboolean, if_true, if_false]
    rfl
  by_cases hnumber : .number ∈ tags
  · by_cases hstring : .string ∈ tags
    · simp only [harray, hboolean, hnumber, hstring, and_self, if_true, if_false]
      rfl
    · simp only [harray, hboolean, hnumber, hstring, and_false, if_true, if_false]
      rfl
  · have hstring : .string ∈ tags := by
      simpa only [Direct, harray, hboolean, hnumber, false_or, or_false] using h
    simp only [harray, hboolean, hnumber, hstring, false_and, if_true, if_false]
    rfl

theorem isAny_evidence (tags : List UsageTag) : (evidence tags).type.isAny = false := by
  unfold evidence
  repeat' split
  all_goals rfl

theorem le_evidence (tags : List UsageTag) : .percent 70 ≤ (evidence tags).confidence := by
  unfold evidence
  repeat' split
  all_goals decide +kernel

theorem lt_evidence_of_unknown {e : Estimate} (he : e ∈ Estimate.unknowns) :
    e.confidence < (evidence tags).confidence := by
  have hlow : ∀ e ∈ Estimate.unknowns, e.confidence < .percent 70 := by decide +kernel
  exact lt_of_lt_of_le (hlow e he) (le_evidence tags)

theorem evidence_lt_ceiling (tags : List UsageTag) :
    (evidence tags).confidence < Confidence.usageCeiling := by
  unfold evidence
  repeat' split
  all_goals decide +kernel

/-- Direct evidence gives way to what is held as surely. -/
theorem withUses_of_le (h : Direct tags) {old : Estimate}
    (hlevel : (evidence tags).confidence ≤ old.confidence) :
    withUses tags (some old) = some old := by
  have hsup : ¬old.confidence < (evidence tags).confidence := not_lt.2 hlevel
  simp [withUses, candidate?_of_direct h, Estimate.merge, Estimate.supersedes, hsup]

/-- Direct evidence decides below its level. The ceiling is above that level, so it makes no
difference here. -/
theorem withUses_of_lt (h : Direct tags) {current : Option Estimate}
    (hlevel : ∀ old, current = some old → old.confidence < (evidence tags).confidence) :
    withUses tags current = some (evidence tags) := by
  unfold withUses
  rw [candidate?_of_direct h]
  cases current with
  | none => rfl
  | some old =>
    have hlt : old.confidence < (evidence tags).confidence := hlevel old rfl
    have hceiling : ¬Confidence.usageCeiling ≤ old.confidence :=
      not_le.2 (lt_trans hlt (evidence_lt_ceiling tags))
    simp [hceiling, hlt, Estimate.merge, Estimate.supersedes]

end Usage

namespace Inference

open Typing

/-- After a round every name that its uses tell directly is held at least as surely as they do. It
is held for what they say if it was held less surely before they were folded in, as it was if a rule
knew nothing of it; and it is unknown exactly if it was held for unknown as surely. -/
theorem evidence_decides_below_its_level (program : Place) (budget : Budget) (known : Knowledge) :
    let scope : Scope := ⟨CallGraph.ofProgram program, budget.limits⟩
    let before := (roundSession scope program.node known).types
    let after := (round scope program known).types
    ∀ name tags, (Usage.ofProgram program known.types).get? name = some tags →
      .array ∈ tags ∨ .boolean ∈ tags ∨ .string ∈ tags ∨ .number ∈ tags →
      ∃ held, after.get? name = some held ∧
        .percent 70 ≤ (Usage.evidence tags).confidence ∧
        (Usage.evidence tags).confidence ≤ held.confidence ∧
        ((∀ old, before.get? name = some old →
            old.confidence < (Usage.evidence tags).confidence) → held = Usage.evidence tags) ∧
        (∀ old ∈ Estimate.unknowns, before.get? name = some old → held = Usage.evidence tags) ∧
        (held.type.isAny = true ↔ ∃ old, before.get? name = some old ∧ old.type.isAny = true ∧
          (Usage.evidence tags).confidence ≤ old.confidence) := by
  intro scope before after name tags htags hdirect
  have hafter : after.get? name = Usage.withUses tags (before.get? name) := by
    show (round scope program known).types.get? name = _
    rw [round, types_resolve, Usage.get?_fold_eq, htags]
    rfl
  by_cases hlevel : ∃ old, before.get? name = some old ∧
      (Usage.evidence tags).confidence ≤ old.confidence
  · obtain ⟨old, hold, hlevel⟩ := hlevel
    have hkept : after.get? name = some old := by
      rw [hafter, hold, Usage.withUses_of_le hdirect hlevel]
    refine ⟨old, hkept, Usage.le_evidence tags, hlevel, fun hbelow => ?_, fun old' hmem hold' => ?_,
      fun hany => ?_, ?_⟩
    · exact absurd (hbelow old hold) (not_lt.2 hlevel)
    · cases hold.symm.trans hold'
      exact absurd (Usage.lt_evidence_of_unknown hmem) (not_lt.2 hlevel)
    · exact ⟨old, hold, hany, hlevel⟩
    · rintro ⟨old', hold', hany, -⟩
      cases hold.symm.trans hold'
      exact hany
  · have hbelow : ∀ old, before.get? name = some old →
        old.confidence < (Usage.evidence tags).confidence := fun old hold =>
      lt_of_not_ge fun hle => hlevel ⟨old, hold, hle⟩
    refine ⟨Usage.evidence tags, hafter.trans (Usage.withUses_of_lt hdirect hbelow),
      Usage.le_evidence tags, le_refl _, fun _ => rfl, fun _ _ _ => rfl,
      fun hany => ?_, ?_⟩
    · cases (Usage.isAny_evidence tags).symm.trans hany
    · rintro ⟨old, hold, -, hle⟩
      exact absurd ⟨old, hold, hle⟩ hlevel

/-- `const a = [1, "x"]; const x = a[0]; const y = x * 2`. -/
def mixedElement : Place where
  node :=
    ⟨0, .program, none, true, none,
      [⟨1, .variableDeclarator, none, true, none,
          [⟨2, .identifier, some .name, true, some "a", []⟩,
            ⟨3, .array, some .value, true, none,
              [⟨4, .number, none, true, some "1", []⟩,
                ⟨5, .string, none, true, some "\"x\"", []⟩]⟩]⟩,
        ⟨6, .variableDeclarator, none, true, none,
          [⟨7, .identifier, some .name, true, some "x", []⟩,
            ⟨8, .subscriptExpression, some .value, true, none,
              [⟨9, .identifier, some .object, true, some "a", []⟩,
                ⟨10, .number, some .index, true, some "0", []⟩]⟩]⟩,
        ⟨11, .variableDeclarator, none, true, none,
          [⟨12, .identifier, some .name, true, some "y", []⟩,
            ⟨13, .binaryExpression, some .value, true, none,
              [⟨14, .identifier, some .left, true, some "x", []⟩,
                ⟨15, .other "*", some .operator, false, some "*", []⟩,
                ⟨16, .number, some .right, true, some "2", []⟩]⟩]⟩]⟩
  above := []

/-- The element is used as a number. It stays unknown where it is taken out of its array, and is
held for a number where no time is left to do so. -/
theorem evidence_decides_below_its_level_element :
    let late : Budget := ⟨⟨1, 1, 1, by decide, by decide⟩, Binary64.onePattern⟩
    let known := initial mixedElement
    (∃ held, (round ⟨CallGraph.ofProgram mixedElement, patient.limits⟩ mixedElement
        known).types.get? "x" = some held ∧ held.type.isAny = true) ∧
      (round ⟨CallGraph.ofProgram mixedElement, late.limits⟩ mixedElement known).types.get? "x" =
        some (.of .number (.percent 80)) := by
  intro late known
  have htags : (Usage.ofProgram mixedElement known.types).get? "x" = some [.number] := by
    decide +kernel
  have hevidence : Usage.evidence [.number] = .of .number (.percent 80) := by
    simp [Usage.evidence]
  constructor
  · obtain ⟨held, hheld, -, -, -, -, hany⟩ := evidence_decides_below_its_level mixedElement patient
      known "x" [.number] htags (by decide)
    have hbefore : ((roundSession ⟨CallGraph.ofProgram mixedElement, patient.limits⟩
        mixedElement.node known).types.get? "x").any (fun old => old.type.isAny &&
          decide ((Usage.evidence [.number]).confidence ≤ old.confidence)) = true := by
      decide +kernel
    obtain ⟨old, hold, hunknown⟩ := (Option.any_eq_true _ _).1 hbefore
    obtain ⟨htype, hlevel⟩ := Bool.and_eq_true_iff.1 hunknown
    exact ⟨held, hheld, hany.2 ⟨old, hold, htype, of_decide_eq_true hlevel⟩⟩
  · obtain ⟨held, hheld, -, -, hdecided, -, -⟩ := evidence_decides_below_its_level mixedElement late
      known "x" [.number] htags (by decide)
    have hbefore : ∀ old, (roundSession ⟨CallGraph.ofProgram mixedElement, late.limits⟩
        mixedElement.node known).types.get? "x" = some old →
        old.confidence < (Usage.evidence [.number]).confidence := by decide +kernel
    rw [hheld, hdecided hbefore, hevidence]

/-- In every round the element is used as a number, and is unknown after it. -/
theorem mixed_element_stays_unknown :
    let scope : Scope := ⟨CallGraph.ofProgram mixedElement, patient.limits⟩
    (∀ entry ∈ rounds scope mixedElement 5 (initial mixedElement),
      entry.1.get? "x" = some [.number] ∧
        (entry.2.types.get? "x").any (fun held => held.type.isAny) = true) ∧
    ((run patient mixedElement).get? "x").any (fun held => held.type.isAny) = true := by
  decide +kernel

end Inference

end ScriptTypes
