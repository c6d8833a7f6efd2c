import ScriptTypes.Proofs.Upheld

/-!
# Certainty is reserved

Only the basic types and promises of them are ever held above what a signature is worth. Containers
stay below it wherever they arise, so that what is taken out of them does too; and nothing that
fades goes beyond the factor it fades by.

* `Ty.IsCertain`: the types that may be certain.
* `Standard.reserved`: the standard that holds all other types modestly.
* `Inference.certainty_reserved`: runs keep to it.
-/

namespace ScriptTypes

/-- A basic type, or the promise of one. -/
def Ty.IsCertain (t : Ty) : Prop :=
  t.isBasic = true ∨ ∃ inner, t = .promise inner ∧ inner.isBasic = true

/-- All types may be guessed, but only basic types and promises of them held firmly. -/
def Standard.reserved : Standard :=
  { Standard.anything with
    firm := Ty.IsCertain
    firm_basic := .inl
    firm_element := by
      rintro element (hbasic | ⟨inner, heq, -⟩)
      · cases hbasic
      · cases heq
    firm_promise := by
      rintro t (hbasic | ⟨inner, rfl, -⟩) hpromise
      · exact .inr ⟨t, rfl, hbasic⟩
      · simp [Ty.isPromise] at hpromise }

instance : Standard.reserved.Signs := ⟨fun _ _ _ => trivial⟩

namespace Inference

/-- However many rounds are made and whatever the clock shows in them, what is held of a name or of
a property of an object, and what a function returns, is a number, a string, a truth value, null,
undefined, a regular expression or the promise of one of these wherever it is held above 0.95; and
so it is in the answer of a run. -/
theorem certainty_reserved (program : Place) (budget : Budget) :
    (∀ count, ∀ known ∈ stages ⟨CallGraph.ofProgram program, budget.limits⟩ program count,
      (∀ name e, known.types.get? name = some e → ∀ part ∈ e.parts,
        .percent 95 < part.confidence → part.type.IsCertain) ∧
      ∀ name e, known.returns.get? name = some e → ∀ part ∈ e.parts,
        .percent 95 < part.confidence → part.type.IsCertain) ∧
    ∀ name e, (run budget program).get? name = some e → ∀ part ∈ e.parts,
      .percent 95 < part.confidence → part.type.IsCertain := by
  refine ⟨fun count known hknown => ?_, fun name e he part hpart => ?_⟩
  · have hupholds : Standard.reserved.Upholds known :=
      Standard.upholds_stages program budget.limits count known hknown
    exact ⟨fun name e he part hpart => (hupholds.types name e he part hpart).2,
      fun name e he part hpart => (hupholds.returns name e he part hpart).2⟩
  · have hrun : Standard.reserved.Fills (run budget program) := Standard.fills_run budget program
    exact (hrun name e he part hpart).2

end Inference

end ScriptTypes
